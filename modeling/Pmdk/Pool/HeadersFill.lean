import Pmdk.Pool.HeadersCreate

/-!
# The UUIDs of broken parts

A broken part gets back the UUID that it had from a neighbour in one of the rings that is not
broken, and if there is none it gets a new one. So all UUIDs are different afterwards, and the check
for repeated ones never fails.
-/

namespace Pmdk.Sync

open List

variable {α : Type*} {machine : Machine α} {set : PoolSet} {hs : Health} {r p : Nat}
  {attr : PoolAttr} {uuids : Nat → α} {uuid : α} {ids : Nat → Nat → α} {h g : Headers α}
  {done : List (Nat × Nat)}

/-- The headers of the parts that are not broken are those of a pool set in which the parts have the
UUIDs `ids`, all of them different and none to be generated again. -/
structure Headers.Damaged (machine : Machine α) (set : PoolSet) (hs : Health) (attr : PoolAttr)
    (uuids : Nat → α) (uuid : α) (ids : Nat → Nat → α) (h : Headers α) : Prop where
  own : ∀ r p, set.Slot r p → hs.isPartBroken r p = false →
    (h.hdr r p).Own machine set attr uuid ids r p
  parts : ∀ r p, set.Slot r p → hs.isPartBroken r p = false → (h.hdr r p).PartLinks set ids r p
  repls : ∀ r p, set.Slot r p → hs.isPartBroken r p = false → (h.hdr r p).ReplLinks set ids r
  distinct : Distinct set ids
  fresh : ∀ r p k, set.Slot r p → h.generated ≤ k → ids r p ≠ uuids k

/-- The UUIDs of the parts that are not broken and of those that are done: the one that the part
had, or a new one. -/
structure Headers.Filled (set : PoolSet) (hs : Health) (uuids : Nat → α) (uuid : α)
    (ids : Nat → Nat → α) (h : Headers α) (done : List (Nat × Nat)) (g : Headers α) : Prop where
  hdr : g.hdr = h.hdr
  uuid : g.uuid = uuid
  generated : h.generated ≤ g.generated
  unbroken : ∀ r p, set.Slot r p → hs.isPartBroken r p = false → g.partUuid r p = ids r p
  known : ∀ r p, set.Slot r p → hs.isPartBroken r p = false ∨ (r, p) ∈ done →
    g.partUuid r p = ids r p ∨
      ∃ k, h.generated ≤ k ∧ k < g.generated ∧ g.partUuid r p = uuids k
  distinct : ∀ r p q t, set.Slot r p → set.Slot q t → hs.isPartBroken r p = false ∨ (r, p) ∈ done →
    hs.isPartBroken q t = false ∨ (q, t) ∈ done → g.partUuid r p = g.partUuid q t → r = q ∧ p = t

namespace Headers

theorem Damaged.fillPartUuids (hd : h.Damaged machine set hs attr uuids uuid ids) {src : Nat}
    (hsrc : set.Slot src 0) (hunbroken : hs.isPartBroken src 0 = false) :
    Filled set hs uuids uuid ids h [] (set.slots.foldl (fun h s => h.fillPartUuid hs s.1 s.2)
      { h with uuid := (h.hdr src 0).poolsetUuid }) := by
  have hkeep : ∀ (g : Headers α) (c : Nat × Nat), (g.fillPartUuid hs c.1 c.2).hdr = g.hdr ∧
      (g.fillPartUuid hs c.1 c.2).uuid = g.uuid ∧
      (g.fillPartUuid hs c.1 c.2).generated = g.generated := by
    intro g c
    rw [fillPartUuid]
    split
    · exact ⟨rfl, rfl, rfl⟩
    · exact ⟨rfl, rfl, rfl⟩
  have hsame : ∀ l : List (Nat × Nat), ∀ g : Headers α,
      (l.foldl (fun h s => h.fillPartUuid hs s.1 s.2) g).hdr = g.hdr ∧
      (l.foldl (fun h s => h.fillPartUuid hs s.1 s.2) g).uuid = g.uuid ∧
      (l.foldl (fun h s => h.fillPartUuid hs s.1 s.2) g).generated = g.generated := by
    intro l g
    refine List.foldlRecOn (motive := fun g' : Headers α =>
      g'.hdr = g.hdr ∧ g'.uuid = g.uuid ∧ g'.generated = g.generated) l _ ⟨rfl, rfl, rfl⟩
      fun b hb c _ => ?_
    obtain ⟨hhdr, huuid, hgen⟩ := hkeep b c
    exact ⟨hhdr.trans hb.1, huuid.trans hb.2.1, hgen.trans hb.2.2⟩
  obtain ⟨hhdr, huuid, hgen⟩ := hsame set.slots { h with uuid := (h.hdr src 0).poolsetUuid }
  have hids : ∀ r p, set.Slot r p → hs.isPartBroken r p = false →
      (set.slots.foldl (fun (h : Headers α) s => h.fillPartUuid hs s.1 s.2)
        { h with uuid := (h.hdr src 0).poolsetUuid }).partUuid r p = ids r p := by
    intro r p hslot hbroken
    have hid := (hd.own r p hslot hbroken).id
    refine Transition.foldl_of_mem
      (f := fun (h : Headers α) (c : Nat × Nat) => h.fillPartUuid hs c.1 c.2) (c := (r, p))
      (I := fun g : Headers α => g.hdr = h.hdr) (Q := fun g => g.partUuid r p = ids r p) rfl
      (fun g hg c _ => (hkeep g c).1.trans hg) (fun g hg => ?_) (fun g hg hq c _ => ?_)
      (PoolSet.mem_slots.mpr hslot)
    · rw [fillPartUuid, hbroken, if_neg Bool.false_ne_true, setUuid_self, hg, hid]
    · rw [fillPartUuid]
      split
      · exact hq
      · by_cases hc : r = c.1 ∧ p = c.2
        · rw [← hc.1, ← hc.2, setUuid_self, hg, hid]
        · rw [setUuid_of_ne hc, hq]
  refine ⟨hhdr, huuid.trans (hd.own src 0 hsrc hunbroken).poolset, Nat.le_of_eq hgen.symm, hids,
    fun r p hslot hknown => .inl ?_, fun r p q t hs' ht hknown hknown' heq => ?_⟩
  · exact hids r p hslot (hknown.resolve_right not_mem_nil)
  · rw [hids r p hs' (hknown.resolve_right not_mem_nil),
      hids q t ht (hknown'.resolve_right not_mem_nil)] at heq
    exact hd.distinct r p q t hs' ht heq

theorem Filled.skip (hf : Filled set hs uuids uuid ids h done g)
    (hbroken : hs.isPartBroken r p = false) :
    Filled set hs uuids uuid ids h (done ++ [(r, p)]) g := by
  have hold : ∀ q t, hs.isPartBroken q t = false ∨ (q, t) ∈ done ++ [(r, p)] →
      hs.isPartBroken q t = false ∨ (q, t) ∈ done := by
    rintro q t (hq | hq)
    · exact .inl hq
    · rcases mem_append.mp hq with hq | hq
      · exact .inr hq
      · obtain ⟨rfl, rfl⟩ := Prod.mk.inj (mem_singleton.mp hq)
        exact .inl hbroken
  exact ⟨hf.hdr, hf.uuid, hf.generated, hf.unbroken,
    fun q t hslot hknown => hf.known q t hslot (hold q t hknown),
    fun q t q' t' hslot hslot' hknown hknown' =>
      hf.distinct q t q' t' hslot hslot' (hold q t hknown) (hold q' t' hknown')⟩

theorem Filled.assign (hf : Filled set hs uuids uuid ids h done g) {g' : Headers α} {v : α}
    (hbroken : hs.isPartBroken r p ≠ false) (hhdr : g'.hdr = g.hdr) (huuid : g'.uuid = g.uuid)
    (hgen : g.generated ≤ g'.generated) (hids : g'.partUuid = (g.setUuid r p v).partUuid)
    (hv : v = ids r p ∨ ∃ k, h.generated ≤ k ∧ k < g'.generated ∧ v = uuids k)
    (hnew : ∀ q t, set.Slot q t → hs.isPartBroken q t = false ∨ (q, t) ∈ done →
      ¬(q = r ∧ t = p) → g.partUuid q t ≠ v) :
    Filled set hs uuids uuid ids h (done ++ [(r, p)]) g' := by
  have hself : g'.partUuid r p = v := hids ▸ setUuid_self
  have hother : ∀ q t, ¬(q = r ∧ t = p) → g'.partUuid q t = g.partUuid q t := fun q t hne =>
    hids ▸ setUuid_of_ne hne
  have hold : ∀ q t, ¬(q = r ∧ t = p) → hs.isPartBroken q t = false ∨ (q, t) ∈ done ++ [(r, p)] →
      hs.isPartBroken q t = false ∨ (q, t) ∈ done := by
    rintro q t hne (hq | hq)
    · exact .inl hq
    · rcases mem_append.mp hq with hq | hq
      · exact .inr hq
      · exact absurd (Prod.mk.inj (mem_singleton.mp hq)) hne
  refine ⟨hhdr.trans hf.hdr, huuid.trans hf.uuid, Nat.le_trans hf.generated hgen,
    fun q t hslot hq => ?_, fun q t hslot hknown => ?_,
    fun q t q' t' hslot hslot' hknown hknown' heq => ?_⟩
  · have hne : ¬(q = r ∧ t = p) := fun hc => hbroken (hc.1 ▸ hc.2 ▸ hq)
    rw [hother q t hne]
    exact hf.unbroken q t hslot hq
  · by_cases hc : q = r ∧ t = p
    · rw [hc.1, hc.2, hself]
      exact hv
    · rw [hother q t hc]
      rcases hf.known q t hslot (hold q t hc hknown) with hid | ⟨k, hk, hk', hval⟩
      · exact .inl hid
      · exact .inr ⟨k, hk, by omega, hval⟩
  · by_cases hc : q = r ∧ t = p
    · by_cases hc' : q' = r ∧ t' = p
      · exact ⟨hc.1.trans hc'.1.symm, hc.2.trans hc'.2.symm⟩
      · rw [hc.1, hc.2, hself, hother q' t' hc'] at heq
        exact absurd heq.symm (hnew q' t' hslot' (hold q' t' hc' hknown') hc')
    · by_cases hc' : q' = r ∧ t' = p
      · rw [hc'.1, hc'.2, hself, hother q t hc] at heq
        exact absurd heq (hnew q t hslot (hold q t hc hknown) hc)
      · rw [hother q t hc, hother q' t' hc'] at heq
        exact hf.distinct q t q' t' hslot hslot' (hold q t hc hknown) (hold q' t' hc' hknown') heq

theorem Filled.recover (hd : h.Damaged machine set hs attr uuids uuid ids)
    (hf : Filled set hs uuids uuid ids h done g) (hslot : set.Slot r p)
    (hbroken : hs.isPartBroken r p ≠ false) :
    Filled set hs uuids uuid ids h (done ++ [(r, p)]) (g.setUuid r p (ids r p)) := by
  refine hf.assign hbroken rfl rfl (Nat.le_refl _) rfl
      (.inl rfl) fun q t hslot' hknown hne heq => ?_
  rcases hf.known q t hslot' hknown with hid | ⟨k, hk, -, hval⟩
  · exact hne (hd.distinct q t r p hslot' hslot (hid.symm.trans heq))
  · exact hd.fresh r p k hslot hk (heq.symm.trans hval)

theorem Filled.generate (huuids : Function.Injective uuids)
    (hd : h.Damaged machine set hs attr uuids uuid ids)
    (hf : Filled set hs uuids uuid ids h done g) (hbroken : hs.isPartBroken r p ≠ false) :
    Filled set hs uuids uuid ids h (done ++ [(r, p)]) (g.generate uuids r p) := by
  refine hf.assign hbroken rfl rfl (Nat.le_succ _) rfl
    (.inr ⟨g.generated, hf.generated, Nat.lt_succ_self _, rfl⟩) fun q t hslot' hknown hne heq => ?_
  rcases hf.known q t hslot' hknown with hid | ⟨k, -, hk, hval⟩
  · exact hd.fresh q t g.generated hslot' hf.generated (hid.symm.trans heq)
  · have := huuids (hval.symm.trans heq)
    omega

variable [DecidableEq α]

theorem Filled.not_used (hd : h.Damaged machine set hs attr uuids uuid ids)
    (hf : Filled set hs uuids uuid ids h done g) (hslot : set.Slot r 0)
    (hprev : ∀ q, q < r → (q, 0) ∈ done) (hpop : set.Populated) :
    g.isUuidAlreadyUsed (ids r 0) r = false := by
  rw [isUuidAlreadyUsed, any_eq_false]
  intro q hq heq
  have hq := mem_range.mp hq
  have heq := beq_iff_eq.mp heq
  have hslot' : set.Slot q 0 := ⟨Nat.lt_trans hq hslot.1, hpop.nhdrs_pos q⟩
  rcases hf.known q 0 hslot' (.inr (hprev q hq)) with hid | ⟨k, hk, -, hval⟩
  · have := (hd.distinct r 0 q 0 hslot hslot' (heq.trans hid)).1
    omega
  · exact hd.fresh r 0 k hslot hk (heq.trans hval)

theorem Filled.step (huuids : Function.Injective uuids) (hpop : set.Populated)
    (hd : h.Damaged machine set hs attr uuids uuid ids) (hf : Filled set hs uuids uuid ids h done g)
    (hslot : set.Slot r p) (hprev : ∀ q, q < r → (q, 0) ∈ done) :
    ∃ g', g.fillBrokenPartUuid set hs uuids r p = .ok g' ∧
      Filled set hs uuids uuid ids h (done ++ [(r, p)]) g' := by
  rw [fillBrokenPartUuid]
  by_cases hbroken : hs.isPartBroken r p = false
  · rw [hbroken, if_pos (by decide)]
    exact ⟨g, rfl, hf.skip hbroken⟩
  rw [Bool.not_eq_false] at hbroken
  have hne : hs.isPartBroken r p ≠ false := fun hc => Bool.false_ne_true (hc.symm.trans hbroken)
  rw [hbroken, if_neg (by decide)]
  split
  · rename_i hneighbour
    rw [Bool.and_eq_true, Bool.not_eq_true', Bool.not_eq_true'] at hneighbour
    have heq := set.hdrp_eq r p
    rw [hneighbour.2, if_neg Bool.false_ne_true] at heq
    have hnext := (hd.parts r (set.hdrp r p) ⟨hslot.1, hpop.hdrp_lt⟩ (heq ▸ hneighbour.1)).next
    rw [hslot.hdrn_hdrp] at hnext
    rw [hf.hdr, hnext]
    exact ⟨_, rfl, hf.recover hd hslot hne⟩
  split
  · rename_i hneighbour
    rw [Bool.and_eq_true, Bool.not_eq_true', Bool.not_eq_true'] at hneighbour
    have heq := set.hdrn_eq r p
    rw [hneighbour.2, if_neg Bool.false_ne_true] at heq
    have hprev := (hd.parts r (set.hdrn r p) ⟨hslot.1, hpop.hdrn_lt⟩ (heq ▸ hneighbour.1)).prev
    rw [hslot.hdrp_hdrn] at hprev
    rw [hf.hdr, hprev]
    exact ⟨_, rfl, hf.recover hd hslot hne⟩
  split
  · rename_i hneighbour
    rw [Bool.and_eq_true, decide_eq_true_iff, Bool.not_eq_true'] at hneighbour
    obtain ⟨rfl, hneighbour⟩ := hneighbour
    have hnext := (hd.repls (set.repp r) 0 ⟨PoolSet.repp_lt hslot.1, hpop.nhdrs_pos _⟩
      hneighbour).next
    rw [PoolSet.repn_repp hslot.1] at hnext
    rw [hf.hdr, hnext, fillFromReplica, hf.not_used hd hslot hprev hpop, if_neg Bool.false_ne_true]
    exact ⟨_, rfl, hf.recover hd hslot hne⟩
  split
  · rename_i hneighbour
    rw [Bool.and_eq_true, decide_eq_true_iff, Bool.not_eq_true'] at hneighbour
    obtain ⟨rfl, hneighbour⟩ := hneighbour
    have hprev' := (hd.repls (set.repn r) 0 ⟨PoolSet.repn_lt hslot.1, hpop.nhdrs_pos _⟩
      hneighbour).prev
    rw [PoolSet.repp_repn hslot.1] at hprev'
    rw [hf.hdr, hprev', fillFromReplica, hf.not_used hd hslot hprev hpop, if_neg Bool.false_ne_true]
    exact ⟨_, rfl, hf.recover hd hslot hne⟩
  · exact ⟨_, rfl, hf.generate huuids hd hne⟩

theorem Damaged.fillStructUuids (huuids : Function.Injective uuids) (hpop : set.Populated)
    (hd : h.Damaged machine set hs attr uuids uuid ids) {src : Nat}
    (hsrc : set.Slot src 0) (hunbroken : hs.isPartBroken src 0 = false) :
    ∃ g, h.fillStructUuids set hs uuids src = .ok g ∧
      Filled set hs uuids uuid ids h set.slots g := by
  have hrun : ∀ (todo done : List (Nat × Nat)) (g : Headers α), done ++ todo = set.slots →
      Filled set hs uuids uuid ids h done g →
      ∃ g', todo.foldlM (fun h s => h.fillBrokenPartUuid set hs uuids s.1 s.2) g =
          (.ok g' : Except SyncError (Headers α)) ∧
        Filled set hs uuids uuid ids h set.slots g' := by
    intro todo
    induction todo with
    | nil =>
      intro done g heq hf
      rw [append_nil] at heq
      exact ⟨g, rfl, heq ▸ hf⟩
    | cons c todo ih =>
      intro done g heq hf
      have hslot : set.Slot c.1 c.2 :=
        PoolSet.mem_slots.mp (heq ▸ mem_append_right _ mem_cons_self)
      -- the first parts of the replicas before come before this part
      have hprev : ∀ q, q < c.1 → (q, 0) ∈ done := by
        intro q hq
        have hmem : (q, 0) ∈ done ++ c :: todo :=
          heq ▸ PoolSet.mem_slots.mpr ⟨Nat.lt_trans hq hslot.1, hpop.nhdrs_pos q⟩
        have hsorted := heq ▸ set.slots_sorted
        rcases mem_append.mp hmem with hmem | hmem
        · exact hmem
        · have hrest := (pairwise_append.mp hsorted).2.1
          rcases mem_cons.mp hmem with rfl | hmem
          · exact absurd hq (Nat.lt_irrefl q)
          · exact absurd ((pairwise_cons.mp hrest).1 _ hmem) (Nat.not_le.mpr hq)
      obtain ⟨g', hstep, hf'⟩ := hf.step huuids hpop hd hslot hprev
      obtain ⟨g'', hfold, hdone⟩ := ih (done ++ [c]) g' (by
        rw [append_assoc, singleton_append, heq]) hf'
      refine ⟨g'', ?_, hdone⟩
      rw [foldlM_cons, hstep]
      exact hfold
  exact hrun set.slots [] _ rfl (hd.fillPartUuids hsrc hunbroken)

end Headers

end Pmdk.Sync
