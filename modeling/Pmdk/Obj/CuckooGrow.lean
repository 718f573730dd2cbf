import Pmdk.Obj.Cuckoo

/-!
# Growing a cuckoo hash table

A table that has grown holds the same bindings.

A call that finds its key answers `EINVAL`. It does not find a key in the second slot if the first
one is empty, which happens after a `cuckoo_remove`; then the key gets a second binding
(`faithful_iff_safe`).

If the growth fails, the call has made eight moves, and the binding that is to be inserted then is
lost. It is the new one if the first slots on the path of the moves come back to the first slot of
the key at the right time (`Closes`); otherwise the call is not atomic.
-/

namespace Pmdk.Cuckoo

open List

variable {V : Type} {c c' old : Table V} {src : Slot V} {k : UInt64} {v : V} {n : Nat}
  {nextSize : Nat → Nat}

theorem wf_zalloc {size : Nat} (h : initialSize ≤ size) : WF (zalloc (V := V) size) where
  slots := rfl
  large := h
  home _ _ hvalue := absurd rfl hvalue
  null _ _ _ := rfl
  unique _ _ _ _ hvalue := absurd rfl hvalue

theorem get_zalloc {size : Nat} (h : initialSize ≤ size) (k : UInt64) :
    get (zalloc (V := V) size) k = none :=
  (wf_zalloc h).get_eq_none_iff.mpr fun _ _ hvalue => absurd rfl hvalue

theorem wf_new : WF (new : Table V) := wf_zalloc (Nat.le_refl initialSize)

/-! ## Hashing again -/

def Distinct (l : List (Slot V)) : Prop :=
  l.Pairwise fun s t => s.value ≠ none → t.value ≠ none → s.key ≠ t.key

theorem get_eq_of_inFlight (h : get c' = inFlight c src) (hk : src.key ≠ k) :
    get c' k = get c k := by
  rw [h, inFlight, Function.update_of_ne hk.symm]

theorem rehash_spec {l : List (Slot V)} (hc : WF c) (hl : Distinct l)
    (hnew : ∀ s ∈ l, s.value ≠ none → get c s.key = none) (h : rehash l c = some c') :
    WF c' ∧ c'.size = c.size ∧
      ∀ k v, get c' k = some v ↔ get c k = some v ∨ ⟨k, some v⟩ ∈ l := by
  induction l generalizing c with
  | nil =>
    cases h
    refine ⟨hc, rfl, fun k v => ?_⟩
    rw [or_iff_left not_mem_nil]
  | cons s l ih =>
    obtain ⟨hs, hl⟩ := pairwise_cons.mp hl
    rw [forall_mem_cons] at hnew
    rw [rehash] at h
    by_cases hempty : s.value.isNone = true
    · rw [if_pos hempty] at h
      obtain ⟨hwf, hsize, hget⟩ := ih hc hl hnew.2 h
      refine ⟨hwf, hsize, fun k v => ?_⟩
      have hne : ⟨k, some v⟩ ≠ s := by
        rintro rfl
        cases hempty
      rw [hget, mem_cons, or_iff_right hne]
    · have hvalue := mt Option.isNone_iff_eq_none.mpr hempty
      rw [if_neg hempty] at h
      obtain ⟨e, c₁, src, heq, hsize, hres⟩ :=
          (Flying.mk hc (hnew.1 hvalue) hvalue).insertTry maxInserts
      rw [heq] at h
      rcases hres with ⟨rfl, hwf, hget⟩ | ⟨rfl, -, -⟩
      · have hin : ∀ k v, get c₁ k = some v ↔ s = ⟨k, some v⟩ ∨ k ≠ s.key ∧ get c k = some v := by
          intro k v
          rw [hget, inFlight_eq_some_iff]
        have hnew' : ∀ t ∈ l, t.value ≠ none → get c₁ t.key = none := fun t ht hvalue' =>
          (get_eq_of_inFlight hget (hs t ht hvalue hvalue')).trans (hnew.2 t ht hvalue')
        obtain ⟨hwf', hsize', hget'⟩ := ih hwf hl hnew' h
        refine ⟨hwf', hsize'.trans hsize, fun k v => ?_⟩
        have hk : get c k = some v → k ≠ s.key := by
          rintro hv rfl
          rw [hnew.1 hvalue] at hv
          cases hv
        rw [hget', hin, mem_cons]
        constructor
        · rintro ((hst | ⟨-, hv⟩) | hmem)
          · exact .inr (.inl hst.symm)
          · exact .inl hv
          · exact .inr (.inr hmem)
        · rintro (hv | hst | hmem)
          · exact .inl (.inr ⟨hk hv, hv⟩)
          · exact .inl (.inl hst.symm)
          · exact .inr hmem
      · cases h

theorem WF.distinct (hold : WF old) : Distinct ((List.range old.size).map old.tab) := by
  refine pairwise_map.mpr (List.Pairwise.imp_of_mem ?_ pairwise_lt_range)
  intro i j hi hj hlt hvalue hvalue' heq
  exact Nat.ne_of_lt hlt (hold.unique i (mem_range.mp hi) j (mem_range.mp hj) hvalue hvalue' heq)

theorem WF.rehash (hold : WF old) {size : Nat} (hsize : initialSize ≤ size)
    (h : rehash ((List.range old.size).map old.tab) (zalloc size) = some c') :
    WF c' ∧ c'.size = size ∧ get c' = get old := by
  obtain ⟨hwf, hsize', hget⟩ := rehash_spec (wf_zalloc hsize) hold.distinct
      (fun s _ _ => get_zalloc hsize s.key) h
  refine ⟨hwf, hsize', funext fun k => Option.ext fun v => ?_⟩
  rw [hget, get_zalloc hsize, hold.get_eq_some_iff, or_iff_right (Option.some_ne_none v).symm,
    mem_map]
  constructor
  · rintro ⟨i, hi, hslot⟩
    exact ⟨i, mem_range.mp hi, hslot⟩
  · rintro ⟨i, hi, hslot⟩
    exact ⟨i, mem_range.mpr hi, hslot⟩

/-- A growth keeps the bindings. If it fails, then the table is the old one, with its old size
unless an allocation has failed. -/
theorem WF.growLoop (hold : WF old) (hgrow : ∀ n, initialSize ≤ n → n < nextSize n)
    (alloc : Nat → Bool) (n i : Nat) {size : Nat} (hsize : old.size ≤ size) :
    ∃ e c', growLoop nextSize old alloc n i size = (e, c') ∧
      (e = none ∧ WF c' ∧ get c' = get old ∨ e ≠ none ∧
        ∃ size', c' = { old with size := size' } ∧ (size' = old.size ∨ ∃ j, alloc j = false)) := by
  induction n generalizing i size with
  | zero => exact ⟨_, _, rfl, .inr ⟨Option.some_ne_none _, old.size, rfl, .inl rfl⟩⟩
  | succ n ih =>
    have hlt := hgrow size (hold.large.trans hsize)
    rw [Cuckoo.growLoop]
    cases halloc : alloc i with
    | false =>
      exact ⟨_, _, if_neg Bool.false_ne_true,
        .inr ⟨Option.some_ne_none _, size, rfl, .inr ⟨i, halloc⟩⟩⟩
    | true =>
      rw [if_pos rfl]
      cases hrehash : Cuckoo.rehash ((List.range old.size).map old.tab)
          (zalloc (nextSize size)) with
      | some c =>
        obtain ⟨hwf, -, hget⟩ := hold.rehash ((hold.large.trans hsize).trans hlt.le) hrehash
        exact ⟨none, c, rfl, .inl ⟨rfl, hwf, hget⟩⟩
      | none => exact ih (i + 1) (hsize.trans hlt.le)

/-! ## Inserts -/

theorem Flying.insertLoop (h : Flying c src) (hgrow : ∀ n, initialSize ≤ n → n < nextSize n)
    (alloc : Nat → Nat → Bool) (n r : Nat) :
    ∃ e c', insertLoop nextSize alloc n r c src = (e, c') ∧
      (e = none ∧ WF c' ∧ get c' = inFlight c src ∨
        e ≠ none ∧ ∃ c₁ src₁ size, Flying c₁ src₁ ∧ inFlight c₁ src₁ = inFlight c src ∧
          c' = { c₁ with size } ∧ (size = c₁.size ∨ ∃ r i, alloc r i = false)) := by
  induction n generalizing c src r with
  | zero => exact ⟨_, _, rfl, .inr ⟨Option.some_ne_none _, c, src, c.size, h, rfl, rfl, .inl rfl⟩⟩
  | succ n ih =>
    obtain ⟨e, c₁, src₁, htry, -, hres⟩ := h.insertTry maxInserts
    rw [Cuckoo.insertLoop, htry]
    rcases hres with ⟨rfl, hwf, hget⟩ | ⟨rfl, hflying, hsame⟩
    · exact ⟨_, _, rfl, .inl ⟨rfl, hwf, hget⟩⟩
    · obtain ⟨e', c₂, hgrown, hres'⟩ :=
        hflying.wf.growLoop hgrow (alloc r) maxGrows 0 (Nat.le_refl c₁.size)
      have hgrown : grow nextSize (alloc r) c₁ = (e', c₂) := hgrown
      dsimp only
      rw [hgrown]
      rcases hres' with ⟨rfl, hwf, hget⟩ | ⟨he, size, rfl, hsize⟩
      · have hnext : Flying c₂ src₁ :=
          ⟨hwf, (congrFun hget src₁.key).trans hflying.new, hflying.value⟩
        have hin : inFlight c₂ src₁ = inFlight c src := by
          rw [← hsame]
          unfold inFlight
          rw [hget]
        have hrest := ih hnext (r + 1)
        rw [hin] at hrest
        exact hrest
      · obtain ⟨e, rfl⟩ := Option.ne_none_iff_exists'.mp he
        exact ⟨_, _, rfl, .inr ⟨he, c₁, src₁, size, hflying, hsame, rfl,
          hsize.imp_right fun hj => ⟨r, hj⟩⟩⟩

/-! ## Tables with room -/

/-- Every key of `m` has a slot that is not one of another key. -/
def Roomy (m : UInt64 → Option V) (size : Nat) : Prop :=
  ∀ k, m k ≠ none → ∃ i, Home size k i ∧ ∀ k', m k' ≠ none → Home size k' i → k' = k

section Roomy

variable {m : UInt64 → Option V}

theorem Flying.free_of_roomy (h : Flying c src) (hsub : ∀ k, inFlight c src k ≠ none → m k ≠ none)
    (hroomy : Roomy m c.size) : Free c src.key := by
  have hsrc : inFlight c src src.key ≠ none := by
    rw [inFlight, Function.update_self]
    exact h.value
  obtain ⟨i, hi, hown⟩ := hroomy src.key (hsub _ hsrc)
  have hlt := hi.lt h.wf.pos
  refine ⟨i, hi, by_contra fun hvalue => ?_⟩
  have hne := h.wf.get_eq_none_iff.mp h.new i hlt hvalue
  refine hne (hown _ (hsub _ ?_) (h.wf.home i hlt hvalue))
  rw [inFlight, Function.update_of_ne hne]
  exact fun hnone => h.wf.get_eq_none_iff.mp hnone i hlt hvalue rfl

theorem rehash_roomy {l : List (Slot V)} (hc : WF c) (hl : Distinct l)
    (hnew : ∀ s ∈ l, s.value ≠ none → get c s.key = none) (hsub : ∀ k, get c k ≠ none → m k ≠ none)
    (hlm : ∀ s ∈ l, s.value ≠ none → m s.key ≠ none) (hroomy : Roomy m c.size) :
    rehash l c ≠ none := by
  induction l generalizing c with
  | nil => exact Option.some_ne_none c
  | cons s l ih =>
    obtain ⟨hs, hl⟩ := pairwise_cons.mp hl
    rw [forall_mem_cons] at hnew hlm
    rw [rehash]
    by_cases hempty : s.value.isNone = true
    · rw [if_pos hempty]
      exact ih hc hl hnew.2 hsub hlm.2 hroomy
    · have hvalue := mt Option.isNone_iff_eq_none.mpr hempty
      have hflying := Flying.mk hc (hnew.1 hvalue) hvalue
      have hin : ∀ k, inFlight c s k ≠ none → m k ≠ none := by
        intro k hk
        by_cases hks : k = s.key
        · exact hks ▸ hlm.1 hvalue
        · rw [inFlight, Function.update_of_ne hks] at hk
          exact hsub k hk
      have hok := hflying.insertTry_free (hflying.free_of_roomy hin hroomy) 7
      obtain ⟨e, c₁, src, heq, hsize, hres⟩ := hflying.insertTry maxInserts
      rw [show (7 : Nat) + 1 = maxInserts from rfl, heq] at hok
      rw [if_neg hempty, heq]
      rcases hres with ⟨rfl, hwf, hget⟩ | ⟨rfl, -, -⟩
      · exact ih hwf hl (fun t ht hvalue' =>
          (get_eq_of_inFlight hget (hs t ht hvalue hvalue')).trans (hnew.2 t ht hvalue'))
          (hget ▸ hin) hlm.2 (hsize ▸ hroomy)
      · cases hok

theorem WF.growLoop_roomy (hold : WF old) (hgrow : ∀ n, initialSize ≤ n → n < nextSize n)
    (alloc : Nat → Bool) (n i : Nat) (hsub : ∀ k, get old k ≠ none → m k ≠ none) {d size : Nat}
    (hsize : old.size ≤ size) (hd : d < n) (halloc : ∀ e ≤ d, alloc (i + e) = true)
    (hroomy : Roomy m (nextSize^[d + 1] size)) :
    ∃ e ≤ d, ∃ c', Cuckoo.growLoop nextSize old alloc n i size = (none, c') ∧
      c'.size = nextSize^[e + 1] size := by
  induction n generalizing d i size with
  | zero => exact absurd hd (Nat.not_lt_zero d)
  | succ n ih =>
    have hlt := hgrow size (hold.large.trans hsize)
    have hlarge := (hold.large.trans hsize).trans hlt.le
    rw [Cuckoo.growLoop, if_pos (show alloc i = true from halloc 0 (Nat.zero_le d))]
    cases hrehash : Cuckoo.rehash ((List.range old.size).map old.tab) (zalloc (nextSize size)) with
    | some c => exact ⟨0, Nat.zero_le d, c, rfl, (hold.rehash hlarge hrehash).2.1⟩
    | none =>
      cases d with
      | zero =>
        refine absurd hrehash (rehash_roomy (wf_zalloc hlarge) hold.distinct
          (fun s _ _ => get_zalloc hlarge s.key)
          (fun k hk => absurd (get_zalloc hlarge k) hk) (fun s hs hvalue => ?_) hroomy)
        obtain ⟨j, hj, rfl⟩ := mem_map.mp hs
        exact hsub _ fun hnone =>
          hold.get_eq_none_iff.mp hnone j (mem_range.mp hj) hvalue rfl
      | succ d =>
        obtain ⟨e, he, c', heq, hsize'⟩ := ih (i + 1) (hsize.trans hlt.le)
          (Nat.lt_of_succ_lt_succ hd) (fun e he => by
            rw [Nat.add_right_comm]
            exact halloc (e + 1) (Nat.succ_le_succ he)) hroomy
        exact ⟨e + 1, Nat.succ_le_succ he, c', heq, hsize'⟩

/-- An insert succeeds if the table has room for all keys after some growths, and the memory for
them is there. -/
theorem Flying.insertLoop_roomy (h : Flying c src)
    (hgrow : ∀ n, initialSize ≤ n → n < nextSize n) {alloc : Nat → Nat → Bool}
    (hsub : ∀ k, inFlight c src k ≠ none → m k ≠ none) {d r : Nat} (hd : d < n)
    (hn : n ≤ maxGrows) (halloc : ∀ a j, a + j < d → alloc (r + a) j = true)
    (hroomy : Roomy m (nextSize^[d] c.size)) :
    (Cuckoo.insertLoop nextSize alloc n r c src).1 = none := by
  induction n generalizing c src d r with
  | zero => exact absurd hd (Nat.not_lt_zero d)
  | succ n ih =>
    obtain ⟨e, c₁, src₁, htry, hsize, hres⟩ := h.insertTry maxInserts
    rw [Cuckoo.insertLoop, htry]
    rcases hres with ⟨rfl, -⟩ | ⟨rfl, hflying, hsame⟩
    · rfl
    · cases d with
      | zero =>
        have hok := h.insertTry_free (h.free_of_roomy hsub hroomy) 7
        rw [show (7 : Nat) + 1 = maxInserts from rfl, htry] at hok
        cases hok
      | succ d =>
        have hsub₁ : ∀ k, get c₁ k ≠ none → m k ≠ none := by
          refine fun k hk => hsub k (hsame ▸ ?_)
          rw [inFlight, Function.update_of_ne]
          · exact hk
          · rintro rfl
            exact hk hflying.new
        obtain ⟨e, he, c₂, hgrown, hsize₂⟩ := hflying.wf.growLoop_roomy hgrow (alloc r) maxGrows 0
          hsub₁ le_rfl (by omega) (fun e he => by
            rw [Nat.zero_add]
            exact halloc 0 e (by omega)) (hsize ▸ hroomy)
        obtain ⟨e', c₂', hgrown', hres'⟩ :=
          hflying.wf.growLoop hgrow (alloc r) maxGrows 0 (Nat.le_refl c₁.size)
        cases hgrown.symm.trans hgrown'
        rcases hres' with ⟨-, hwf, hget⟩ | ⟨hne, -⟩
        · have hnext : Flying c₂ src₁ :=
            ⟨hwf, (congrFun hget src₁.key).trans hflying.new, hflying.value⟩
          have hin : inFlight c₂ src₁ = inFlight c src := by
            rw [← hsame]
            unfold inFlight
            rw [hget]
          dsimp only
          rw [show grow nextSize (alloc r) c₁ = (none, c₂) from hgrown]
          refine @ih c₂ src₁ hnext (hin ▸ hsub) (d - e) (r + 1) (by omega) (by omega)
            (fun a j ha => ?_) ?_
          · rw [Nat.add_assoc, Nat.add_comm 1 a]
            exact halloc (a + 1) j (by omega)
          · rw [hsize₂, ← Function.iterate_add_apply, show d - e + (e + 1) = d + 1 by omega, hsize]
            exact hroomy
        · exact absurd rfl hne

end Roomy

/-! ## Calls -/

inductive Op (V : Type)
  | insert (key : UInt64) (value : V)
  | remove (key : UInt64)

def exec (nextSize : Nat → Nat) (alloc : Nat → Nat → Bool) : Op V → Table V → Option (Table V)
  | .insert key value, c => some (insert nextSize alloc c key value).2
  | .remove key, c => some (remove c key).2

theorem WF.flying (hc : WF c) (hk : get c k = none) (v : V) : Flying c ⟨k, some v⟩ :=
  ⟨hc, hk, Option.some_ne_none v⟩

theorem WF.insert_found (hc : WF c) (nextSize : Nat → Nat) (alloc : Nat → Nat → Bool) (v : V)
    (hk : get c k ≠ none) (hfirst : (c.tab (hashMod c.size k)).value ≠ none) :
    insert nextSize alloc c k v = (some .einval, c) := by
  obtain ⟨w, hw⟩ := Option.ne_none_iff_exists'.mp hk
  obtain ⟨i, hi, hslot⟩ := hc.get_eq_some_iff.mp hw
  have hhome : Home c.size k i := by
    have hhome := hc.home i hi (by rw [hslot]; exact Option.some_ne_none w)
    rwa [hslot] at hhome
  have hfirst := mt Option.isNone_iff_eq_none.mp hfirst
  have htry : insertTry maxInserts c ⟨k, some v⟩ = (some .einval, c, ⟨k, some v⟩) := by
    rw [show maxInserts = 7 + 1 from rfl, insertTry]
    by_cases hkey : (c.tab (hashMod c.size k)).key = k
    · rw [if_neg hfirst, if_pos hkey]
    · have hsecond : i = hashMixer c.size k := hhome.resolve_left fun h => hkey (by
        rw [← h, hslot])
      rw [if_neg hfirst, if_neg hkey, ← hsecond, hslot]
      exact (if_neg Bool.false_ne_true).trans (if_pos rfl)
  unfold insert
  rw [show maxGrows = 31 + 1 from rfl, insertLoop, htry]

/-- A binding is stored if the first slot is empty, whether the key is in the table or not. -/
theorem insert_empty (hfirst : (c.tab (hashMod c.size k)).value = none) :
    insert nextSize alloc c k v = (none, c.store (hashMod c.size k) ⟨k, some v⟩) := by
  have hfirst : (c.tab (hashMod c.size k)).value.isNone = true := by
    rw [hfirst]
    rfl
  have htry : insertTry maxInserts c ⟨k, some v⟩ =
      (none, c.store (hashMod c.size k) ⟨k, some v⟩, ⟨k, some v⟩) := by
    rw [show maxInserts = 7 + 1 from rfl, insertTry]
    exact if_pos hfirst
  unfold insert
  rw [show maxGrows = 31 + 1 from rfl, insertLoop, htry]

theorem WF.remove (hc : WF c) (k : UInt64) :
    (remove c k).1 = get c k ∧ WF (remove c k).2 ∧
      get (remove c k).2 = Function.update (get c) k none := by
  unfold Cuckoo.remove
  cases hfind : findSlot c k with
  | none =>
    have hget : get c k = none := by
      unfold get
      rw [hfind]
      rfl
    refine ⟨hget.symm, hc, ?_⟩
    rw [← hget, Function.update_eq_self]
  | some i =>
    obtain ⟨hhome, hkey⟩ := findSlot_eq_some hfind
    have hget : get c k = (c.tab i).value := by
      unfold get
      rw [hfind]
      rfl
    have hfits : Fits c i nullSlot :=
      ⟨hhome.lt hc.pos, fun h => absurd rfl h, fun _ => rfl, fun h => absurd rfl h⟩
    refine ⟨hget.symm, hc.store hfits, funext fun k' => Option.ext fun v => ?_⟩
    rw [hc.get_store hfits]
    by_cases hk : k' = k
    · subst hk
      rw [Function.update_self]
      constructor
      · rintro (hnull | ⟨hv, hne⟩)
        · cases hnull
        · have hslot : c.tab i = ⟨(c.tab i).key, (c.tab i).value⟩ := rfl
          rw [hkey, ← hget, hv] at hslot
          exact absurd hslot hne
      · intro h
        cases h
    · rw [Function.update_of_ne hk]
      constructor
      · rintro (hnull | ⟨hv, -⟩)
        · cases hnull
        · exact hv
      · refine fun hv => .inr ⟨hv, fun hslot => hk ?_⟩
        rw [← hkey, hslot]

/-! ## Duplicates -/

/-- `cuckoo_get` returns the binding of a key, of which there is one at most. -/
def Sound (c : Table V) : Prop := ∀ k v, get c k = some v ↔ Bound c k v

def Faithful (nextSize : Nat → Nat) : Op V → Table V → Prop
  | .insert k v, c =>
    (get c k ≠ none → insert nextSize (fun _ _ => true) c k v = (some .einval, c)) ∧
      ((insert nextSize (fun _ _ => true) c k v).1 = none →
        get (insert nextSize (fun _ _ => true) c k v).2 = Function.update (get c) k (some v)) ∧
        Sound (insert nextSize (fun _ _ => true) c k v).2
  | .remove k, c =>
    (remove c k).1 = get c k ∧ get (remove c k).2 = Function.update (get c) k none ∧
      Sound (remove c k).2

def Safe : Op V → Table V → Prop
  | .insert k _, c => get c k ≠ none → (c.tab (hashMod c.size k)).value ≠ none
  | .remove _, _ => True

instance : ∀ (op : Op V) (c : Table V), Decidable (Safe op c)
  | .insert k _, c =>
    inferInstanceAs (Decidable (get c k ≠ none → (c.tab (hashMod c.size k)).value ≠ none))
  | .remove _, _ => inferInstanceAs (Decidable True)

theorem WF.sound (hc : WF c) : Sound c := fun _ _ => hc.get_eq_some_iff

/-- What an insert does that succeeds, and the table after one that fails, if all allocations
succeed. -/
theorem WF.insert_new (hc : WF c) (hgrow : ∀ n, initialSize ≤ n → n < nextSize n)
    (hk : get c k = none) (v : V) :
    WF (insert nextSize (fun _ _ => true) c k v).2 ∧
      ((insert nextSize (fun _ _ => true) c k v).1 = none →
        get (insert nextSize (fun _ _ => true) c k v).2 = Function.update (get c) k (some v)) := by
  obtain ⟨e, c', heq, hres⟩ := (hc.flying hk v).insertLoop hgrow (fun _ _ => true) maxGrows 0
  have heq : insert nextSize (fun _ _ => true) c k v = (e, c') := heq
  rw [heq]
  rcases hres with ⟨-, hwf, hget⟩ | ⟨he, c₁, src₁, size, hflying, -, rfl, hsize⟩
  · exact ⟨hwf, fun _ => hget⟩
  · refine ⟨?_, fun h => absurd h he⟩
    rcases hsize with rfl | ⟨r, i, hfalse⟩
    · exact hflying.wf
    · cases hfalse

theorem WF.faithful_iff (hc : WF c) (hgrow : ∀ n, initialSize ≤ n → n < nextSize n) (op : Op V) :
    Faithful nextSize op c ↔ Safe op c := by
  cases op with
  | insert k v =>
    by_cases hk : get c k = none
    · obtain ⟨hwf, hget⟩ := hc.insert_new hgrow hk v
      exact iff_of_true ⟨fun h => absurd hk h, hget, hwf.sound⟩ fun h => absurd hk h
    · constructor
      · intro hfaithful _ hfirst
        have hfound := hfaithful.1 hk
        rw [insert_empty hfirst] at hfound
        cases hfound
      · intro hsafe
        have hfound := hc.insert_found nextSize (fun _ _ => true) v hk (hsafe hk)
        refine ⟨fun _ => hfound, fun h => ?_, ?_⟩
        · rw [hfound] at h
          cases h
        · rw [hfound]
          exact hc.sound
  | remove k =>
    obtain ⟨hret, hwf, hget⟩ := hc.remove k
    exact iff_of_true ⟨hret, hget, hwf.sound⟩ trivial

theorem WF.exec (hc : WF c) (hgrow : ∀ n, initialSize ≤ n → n < nextSize n) {op : Op V}
    (hop : Safe op c) (h : exec nextSize (fun _ _ => true) op c = some c') : WF c' := by
  cases op with
  | insert k v =>
    cases h
    by_cases hk : get c k = none
    · exact (hc.insert_new hgrow hk v).1
    · rw [hc.insert_found _ _ _ hk (hop hk)]
      exact hc
  | remove k =>
    cases h
    exact (hc.remove k).2.1

/-- If all allocations succeed, a run is one of a finite map if and only if no key is inserted again
while its first slot is empty. -/
theorem faithful_iff_safe (hgrow : ∀ n, initialSize ≤ n → n < nextSize n) (ops : List (Op V)) :
    Transition.Guarded (exec nextSize fun _ _ => true) (Faithful nextSize) ops new ↔
      Transition.Guarded (exec nextSize fun _ _ => true) Safe ops new :=
  Transition.guarded_congr (fun op _ hc => hc.faithful_iff hgrow op)
    (fun op _ _ hc hop h => hc.exec hgrow ((hc.faithful_iff hgrow op).mp hop) h) ops wf_new

def nextOf (size : Nat) : Nat := max (size + 1) (size * 6 / 5)

theorem lt_nextOf (n : Nat) : n < nextOf n :=
  Nat.lt_of_lt_of_le (Nat.lt_succ_self n) (Nat.le_max_left _ _)

theorem faithful_found : Transition.Guarded (exec nextOf fun _ _ => true) (Faithful nextOf)
    [.insert 8 'a', .insert 16 'b', .insert 16 'c', .remove 16] new :=
  (faithful_iff_safe (fun n _ => lt_nextOf n) _).mpr
    ⟨by decide, by decide, by decide, trivial, trivial⟩

/-- The key 8 has taken the first slot of 16, which is in the second one then, and is removed. After
another insert of 16 and a remove the binding of the first insert is there. -/
theorem not_faithful_twice :
    ¬ Transition.Guarded (exec nextOf fun _ _ => true) (Faithful nextOf)
        [.insert 8 'a', .insert 16 'b', .remove 8, .insert 16 'c'] new ∧
      (Transition.run (exec nextOf fun _ _ => true)
        [.insert 8 'a', .insert 16 'b', .remove 8, .insert 16 'c', .remove 16] new).map
          (fun c => get c 16) = some (some 'b') := by
  constructor
  · rintro ⟨-, -, -, hfaithful, -⟩
    have hfound := hfaithful.1 (by decide +kernel)
    have herror := congrArg Prod.fst hfound
    revert herror
    decide +kernel
  · decide +kernel

/-! ## Failures -/

abbrev Call (V : Type) := Op V × (Nat → Nat → Bool)

def execCall (nextSize : Nat → Nat) (call : Call V) (c : Table V) : Option (Table V) :=
  exec nextSize call.2 call.1 c

def Atomic (nextSize : Nat → Nat) : Call V → Table V → Prop
  | (.insert k v, alloc), c => (insert nextSize alloc c k v).1 ≠ none →
      get (insert nextSize alloc c k v).2 = get c ∧
        (insert nextSize alloc c k v).2.size = (insert nextSize alloc c k v).2.slots
  | (.remove _, _), _ => True

/-- The insert of a new key needs no growth, or it fails for lack of memory at its first growth and
the path of its moves closes, or there is the memory for growths to a table with room. -/
def Contained (nextSize : Nat → Nat) : Call V → Table V → Prop
  | (.insert k v, alloc), c => get c k = none → Settles c k ∨ Closes c k ∧ alloc 0 0 = false ∨
      ∃ d < maxGrows, (∀ r j, r + j < d → alloc r j = true) ∧
        Roomy (Function.update (get c) k (some v)) (nextSize^[d] c.size)
  | (.remove _, _), _ => True

theorem Flying.get_eq_iff {c₁ : Table V} {src₁ : Slot V} (h : Flying c₁ src₁)
    (hk : get c k = none) (hsame : inFlight c₁ src₁ = inFlight c ⟨k, some v⟩) :
    get c₁ = get c ↔ src₁.key = k := by
  unfold inFlight at hsame
  constructor
  · intro hget
    by_contra hne
    have hat := congrFun hsame k
    rw [Function.update_self, Function.update_of_ne (Ne.symm hne), hget, hk] at hat
    cases hat
  · intro hkey
    funext k'
    by_cases hk' : k' = k
    · rw [hk', hk, ← hkey, h.new]
    · have hat := congrFun hsame k'
      rwa [hkey, Function.update_of_ne hk', Function.update_of_ne hk'] at hat

theorem WF.atomic_of_eq_none (hc : WF c) (hgrow : ∀ n, initialSize ≤ n → n < nextSize n)
    (hk : get c k = none) (hnone : (insert nextSize alloc c k v).1 = none) :
    Atomic nextSize (.insert k v, alloc) c ∧ WF (insert nextSize alloc c k v).2 := by
  obtain ⟨e, c', heq, hres⟩ := (hc.flying hk v).insertLoop hgrow alloc maxGrows 0
  have heq : insert nextSize alloc c k v = (e, c') := heq
  refine ⟨fun hne => absurd hnone hne, ?_⟩
  rw [heq] at hnone ⊢
  rcases hres with ⟨-, hwf, -⟩ | ⟨hne, -⟩
  · exact hwf
  · exact absurd hnone hne

theorem insert_of_settles (nextSize : Nat → Nat) (alloc : Nat → Nat → Bool) (hc : WF c)
    (hk : get c k = none) (h : Settles c k) : (insert nextSize alloc c k v).1 = none := by
  have hok := ((hc.flying hk v).insertTry_eq_none_iff maxInserts).mpr h
  unfold insert
  rw [show maxGrows = 31 + 1 from rfl, insertLoop]
  generalize insertTry maxInserts c ⟨k, some v⟩ = res at hok
  obtain ⟨e, c', src'⟩ := res
  cases hok
  rfl

theorem insert_of_no_memory (nextSize : Nat → Nat) (halloc : alloc 0 0 = false) {src' : Slot V}
    (htry : insertTry maxInserts c ⟨k, some v⟩ = (some .eagain, c', src')) :
    insert nextSize alloc c k v = (some .enomem, c') := by
  unfold insert
  rw [show maxGrows = 31 + 1 from rfl, insertLoop, htry]
  dsimp only
  rw [grow, show maxGrows = 31 + 1 from rfl, growLoop, halloc]
  rfl

/-- Without memory an insert is atomic if and only if it needs no growth or its path closes. -/
theorem WF.atomic_iff_of_no_memory (nextSize : Nat → Nat) (hc : WF c) (hk : get c k = none)
    (halloc : alloc 0 0 = false) :
    WF (insert nextSize alloc c k v).2 ∧
      (Atomic nextSize (.insert k v, alloc) c ↔ Settles c k ∨ Closes c k) := by
  have hflying := hc.flying hk v
  have hsettles := hflying.insertTry_eq_none_iff maxInserts
  obtain ⟨e, c₁, src₁, htry, -, hres⟩ := hflying.insertTry maxInserts
  rw [htry] at hsettles
  rcases hres with ⟨rfl, hwf, -⟩ | ⟨rfl, hflying₁, hsame⟩
  · have hsettles : Settles c k := hsettles.mp rfl
    have heq : insert nextSize alloc c k v = (none, c₁) := by
      unfold insert
      rw [show maxGrows = 31 + 1 from rfl, insertLoop, htry]
    refine ⟨heq ▸ hwf, iff_of_true (fun hne => absurd ?_ hne) (.inl hsettles)⟩
    rw [heq]
  · have hnot : ¬ Settles c k := fun h => by cases hsettles.mpr h
    have heq := insert_of_no_memory nextSize halloc htry
    refine ⟨heq ▸ hflying₁.wf, ?_⟩
    rw [or_iff_right hnot, Atomic, heq, ← hflying.insertTry_closes htry]
    have hback := hflying₁.get_eq_iff hk hsame
    exact ⟨fun h => hback.mp (h (Option.some_ne_none _)).1,
      fun h _ => ⟨hback.mpr h, hflying₁.wf.slots.symm⟩⟩

theorem WF.atomic (hc : WF c) (hgrow : ∀ n, initialSize ≤ n → n < nextSize n) {call : Call V}
    (hsafe : Safe call.1 c) (hcall : Contained nextSize call c) :
    Atomic nextSize call c ∧ ∀ c', execCall nextSize call c = some c' → WF c' := by
  obtain ⟨op, alloc⟩ := call
  cases op with
  | remove k => exact ⟨trivial, fun c' h => Option.some.inj h ▸ (hc.remove k).2.1⟩
  | insert k v =>
    suffices h : Atomic nextSize (.insert k v, alloc) c ∧ WF (insert nextSize alloc c k v).2 from
      ⟨h.1, fun c' h' => Option.some.inj h' ▸ h.2⟩
    by_cases hk : get c k = none
    · rcases hcall hk with hsettles | ⟨hcloses, halloc⟩ | ⟨d, hd, halloc, hroomy⟩
      · exact hc.atomic_of_eq_none hgrow hk (insert_of_settles _ _ hc hk hsettles)
      · obtain ⟨hwf, hiff⟩ := hc.atomic_iff_of_no_memory nextSize hk halloc
        exact ⟨hiff.mpr (.inr hcloses), hwf⟩
      · exact hc.atomic_of_eq_none hgrow hk ((hc.flying hk v).insertLoop_roomy hgrow
          (fun _ h => h) hd le_rfl (fun a j ha => by simpa using halloc a j ha) hroomy)
    · have hfound := hc.insert_found nextSize alloc v hk (hsafe hk)
      rw [Atomic, hfound]
      exact ⟨fun _ => ⟨rfl, hc.slots.symm⟩, hc⟩

/-- In the runs that insert no key for a second time all calls that fail are atomic if each insert
is contained. Where the first allocation fails this is needed as well. -/
theorem atomic_of_contained (hgrow : ∀ n, initialSize ≤ n → n < nextSize n)
    {calls : List (Call V)} (h : Transition.Guarded (execCall nextSize)
      (fun call c => Safe call.1 c ∧ Contained nextSize call c) calls new) :
    Transition.Guarded (execCall nextSize) (Atomic nextSize) calls new ∧
      ∀ c, Transition.run (execCall nextSize) calls new = some c →
        ∀ k v alloc, get c k = none → alloc 0 0 = false →
          (Atomic nextSize (.insert k v, alloc) c ↔ Settles c k ∨ Closes c k) := by
  have hstep : ∀ (call : Call V) c c', WF c →
      Safe call.1 c ∧ Contained nextSize call c → execCall nextSize call c = some c' → WF c' :=
    fun _ _ c' hc hcall => (hc.atomic hgrow hcall.1 hcall.2).2 c'
  refine ⟨h.imp (fun _ _ hc hcall => (hc.atomic hgrow hcall.1 hcall.2).1) hstep wf_new,
    fun c hrun k v alloc hk halloc => ?_⟩
  have hc := Transition.run_invariant (fun call _ => hstep call) h wf_new hrun
  exact (hc.atomic_iff_of_no_memory nextSize hk halloc).2

def turns : List (Call Char) :=
  [(.insert 5 'a', fun _ _ => true), (.insert 13 'b', fun _ _ => false)]

/-- Both keys have the slot 5 only, and there is no memory for a larger table. -/
theorem atomic_turns : Transition.Guarded (execCall nextOf) (Atomic nextOf) turns new ∧
    (insert nextOf (fun _ _ => false) (insert nextOf (fun _ _ => true) new 5 'a').2 13 'b').1 =
      some .enomem := by
  have hcontained : Transition.Guarded (execCall nextOf)
      (fun call c => Safe call.1 c ∧ Contained nextOf call c) turns new := by
    refine ⟨⟨by decide, fun _ => .inl ⟨0, by decide, _, .inl rfl, rfl⟩⟩, ⟨by decide +kernel,
      fun _ => .inr (.inl ⟨⟨0, ⟨by decide +kernel, fun i hi => absurd hi (Nat.not_lt_zero i)⟩,
        by decide, by decide⟩, rfl⟩)⟩, trivial⟩
  exact ⟨(atomic_of_contained (fun n _ => lt_nextOf n) hcontained).1, by decide +kernel⟩

/-- The key 19 has been displaced by 6 when there is no memory for a larger table. -/
theorem not_atomic_lost :
    ¬ Transition.Guarded (execCall nextOf) (Atomic nextOf)
        [(.insert 1 'a', fun _ _ => true), (.insert 3 'b', fun _ _ => true),
          (.insert 19 'c', fun _ _ => true), (.insert 6 'd', fun _ _ => false)] new := by
  rintro ⟨-, -, -, hatomic, -⟩
  have hlost := congrFun (hatomic (by decide +kernel)).1 19
  revert hlost
  decide +kernel

end Pmdk.Cuckoo
