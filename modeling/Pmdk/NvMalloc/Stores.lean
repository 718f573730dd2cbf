import Pmdk.NvMalloc.ReserveHuge

/-!
# The stores of nvm_activate and nvm_free

A word of the client is in no header. So all stores of a call but those to the link words are to
the header of its object, where they leave the state that they end with and no links.
-/

namespace Pmdk.NvMalloc

open Extent List

/-! ## Where a store goes -/

namespace Store

def target : Store → Option Nat
  | mem a _ => some a
  | setBit page i => some (addr page (offBitmap + i / 8))
  | clearBit page i => some (addr page (offBitmap + i / 8))
  | log _ _ => none

end Store

variable {st : Store}

variable {a v on n : Nat} {stores : List Store}

theorem exec_of_ne {m : Nvm} (h : st.target ≠ some a) :
    (m.exec st).mem a = m.mem a := by
  have hne : ∀ {b}, st.target = some b → a ≠ b := fun heq hab => h (hab ▸ heq)
  cases st with
  | mem b v => exact Function.update_of_ne (hne rfl) ..
  | setBit page i => exact Function.update_of_ne (hne rfl) ..
  | clearBit page i => exact Function.update_of_ne (hne rfl) ..
  | log slot v => rfl

theorem foldl_exec_of_ne {m : Nvm}
    (h : ∀ st ∈ stores, st.target ≠ some a) : (stores.foldl Nvm.exec m).mem a = m.mem a := by
  induction stores generalizing m with
  | nil => rfl
  | cons st stores ih =>
    exact (ih fun st' hst' => h st' (mem_cons_of_mem st hst')).trans
      (exec_of_ne (h st mem_cons_self))

theorem foldl_exec_mem_congr {m m' : Nvm} (h : m.mem = m'.mem) (stores : List Store) :
    (stores.foldl Nvm.exec m).mem = (stores.foldl Nvm.exec m').mem := by
  induction stores generalizing m m' with
  | nil => exact h
  | cons st stores ih =>
    refine ih ?_
    cases st with
    | mem a v => exact congrArg (Function.update · a v) h
    | setBit page i =>
      show Function.update m.mem _ _ = Function.update m'.mem _ _
      rw [h]
    | clearBit page i =>
      show Function.update m.mem _ _ = Function.update m'.mem _ _
      rw [h]
    | log slot v => exact h

theorem foldl_exec_append {m : Nvm} {pre post : List Store} (h : ∀ st ∈ post, st.target ≠ some a) :
    ((pre ++ .mem a v :: post).foldl Nvm.exec m).mem a = v := by
  rw [foldl_append, foldl_cons, foldl_exec_of_ne h]
  exact Function.update_self ..

def Avoids (stores : List Store) (page : Nat) : Prop :=
  ∀ st ∈ stores, ∀ off < headerSize, st.target ≠ some (addr page off)

theorem Avoids.sameHdr {m : Nvm} {page : Nat} (h : Avoids stores page) :
    SameHdr m.mem (stores.foldl Nvm.exec m).mem page :=
  fun off hoff => foldl_exec_of_ne fun st hst => h st hst off hoff

theorem Avoids.append {stores' : List Store} {page : Nat} (h : Avoids stores page)
    (h' : Avoids stores' page) : Avoids (stores ++ stores') page :=
  fun st hst => (mem_append.mp hst).elim (h st) (h' st)

theorem Avoids.cons {page : Nat}
    (hst : ∀ off < headerSize, st.target ≠ some (addr page off)) (h : Avoids stores page) :
    Avoids (st :: stores) page :=
  fun st' hst' => (mem_cons.mp hst').elim (fun heq => heq ▸ hst) (h st')

/-! ## Links -/

def Links.Avoid (links : Links) (page : Nat) : Prop :=
  ∀ l ∈ links.toList, ∀ off < headerSize, l.ptr ≠ addr page off

theorem addr_add (page off n : Nat) : addr page off + n = addr page (off + n) := Nat.add_assoc ..

theorem mem_linkStores {state page commit : Nat} {links : Links}
    (h : st ∈ links.stores state (addr page on) commit) :
    st = .mem state commit ∨ (∃ j < 4, ∃ v, st = .mem (addr page (on + 8 * j)) v) ∨
      ∃ l ∈ links.toList, st = .mem l.ptr l.value := by
  match links, h with
  | some (l, none), h =>
    simp only [Links.stores, Links.notes, Links.follow, Links.toList, map_cons,
      map_nil, cons_append, nil_append, mem_cons, not_mem_nil,
      or_false, addr_add] at h
    rcases h with rfl | rfl | rfl | rfl
    · exact .inr (.inl ⟨0, by decide, _, rfl⟩)
    · exact .inr (.inl ⟨1, by decide, _, rfl⟩)
    · exact .inl rfl
    · exact .inr (.inr ⟨l, mem_cons_self, rfl⟩)
  | some (l, some l'), h =>
    simp only [Links.stores, Links.notes, Links.follow, Links.toList, map_cons,
      map_nil, cons_append, nil_append, mem_cons, not_mem_nil,
      or_false, addr_add] at h
    rcases h with rfl | rfl | rfl | rfl | rfl | rfl | rfl
    · exact .inr (.inl ⟨0, by decide, _, rfl⟩)
    · exact .inr (.inl ⟨1, by decide, _, rfl⟩)
    · exact .inr (.inl ⟨2, by decide, _, rfl⟩)
    · exact .inr (.inl ⟨3, by decide, _, rfl⟩)
    · exact .inl rfl
    · exact .inr (.inr ⟨l, mem_cons_self, rfl⟩)
    · exact .inr (.inr ⟨l', mem_cons_of_mem l mem_cons_self, rfl⟩)

theorem mem_clearStores {page : Nat} (h : st ∈ clearStores (addr page on)) :
    ∃ j < 4, st = .mem (addr page (on + 8 * j)) 0 := by
  simp only [clearStores, mem_cons, not_mem_nil, or_false, addr_add] at h
  rcases h with rfl | rfl | rfl | rfl
  · exact ⟨0, by decide, rfl⟩
  · exact ⟨1, by decide, rfl⟩
  · exact ⟨2, by decide, rfl⟩
  · exact ⟨3, by decide, rfl⟩

theorem foldl_clearStores {m : Nvm} {pre : List Store} {page j : Nat} (hj : j < 4) :
    ((pre ++ clearStores (addr page on)).foldl Nvm.exec m).mem (addr page (on + 8 * j)) = 0 := by
  rw [foldl_append, ← addr_add]
  obtain rfl | rfl | rfl | rfl : j = 0 ∨ j = 1 ∨ j = 2 ∨ j = 3 := by omega
  all_goals simp [clearStores, Nvm.exec, Nvm.put]

/-! ## Large and huge objects -/

section Header

variable {m : Nvm} {page commit final : Nat} {links : Links}

theorem headerStores_avoids {p : Nat} (hp : p ≠ page) (hlinks : links.Avoid p) :
    Avoids (headerStores page commit final links) p := by
  have hhdr : ∀ {off' v}, off' < 4096 → ∀ off < headerSize,
      (Store.mem (addr page off') v).target ≠ some (addr p off) := by
    intro off' v hoff' off hoff heq
    exact addr_ne_of_ne hp.symm hoff' (Nat.lt_trans hoff (by decide)) (Option.some.inj heq)
  have hon : ∀ j < 4, offOn + 8 * j < 4096 := by
    intro j hj
    rw [offOn]
    omega
  refine Avoids.append (fun st hst => ?_) (.cons (hhdr (by decide)) fun st hst => ?_)
  · rcases mem_linkStores hst with rfl | ⟨j, hj, v, rfl⟩ | ⟨l, hl, rfl⟩
    · exact hhdr (by decide)
    · exact hhdr (hon j hj)
    · exact fun off hoff heq => hlinks l hl off hoff (Option.some.inj heq)
  · obtain ⟨j, hj, rfl⟩ := mem_clearStores hst
    exact hhdr (hon j hj)

theorem headerStores_state :
    ((headerStores page commit final links).foldl Nvm.exec m).mem (addr page 0) = final := by
  refine foldl_exec_append fun st hst heq => ?_
  obtain ⟨j, hj, rfl⟩ := mem_clearStores hst
  have hoff : offOn + 8 * j < 4096 ∧ offOn + 8 * j ≠ 0 := by
    rw [offOn]
    omega
  exact hoff.2 ((addr_inj hoff.1 (by decide)).mp (Option.some.inj heq)).2

theorem headerStores_size (hlinks : links.Avoid page) :
    ((headerStores page commit final links).foldl Nvm.exec m).mem (addr page offSize) =
      m.mem (addr page offSize) := by
  have hhdr : ∀ {off v}, off < 4096 → off ≠ offSize →
      (Store.mem (addr page off) v).target ≠ some (addr page offSize) := by
    intro off v hoff hne heq
    exact hne ((addr_inj hoff (by decide)).mp (Option.some.inj heq)).2
  have hon : ∀ j < 4, offOn + 8 * j < 4096 ∧ offOn + 8 * j ≠ offSize := by
    intro j hj
    rw [offOn, offSize]
    omega
  refine foldl_exec_of_ne fun st hst => ?_
  rcases mem_append.mp hst with hst | hst
  · rcases mem_linkStores hst with rfl | ⟨j, hj, v, rfl⟩ | ⟨l, hl, rfl⟩
    · exact hhdr (by decide) (by decide)
    · exact hhdr (hon j hj).1 (hon j hj).2
    · exact fun heq => hlinks l hl offSize (by decide) (Option.some.inj heq)
  · rcases mem_cons.mp hst with rfl | hst
    · exact hhdr (by decide) (by decide)
    · obtain ⟨j, hj, rfl⟩ := mem_clearStores hst
      exact hhdr (hon j hj).1 (hon j hj).2

theorem headerStores_on {j : Nat} (hj : j < 4) :
    ((headerStores page commit final links).foldl Nvm.exec m).mem (addr page (offOn + 8 * j)) =
      0 := by
  have happ : headerStores page commit final links =
      (links.stores (addr page 0) (addr page offOn) commit ++ [.mem (addr page 0) final]) ++
        clearStores (addr page offOn) := by
    rw [headerStores, append_assoc]
    rfl
  rw [happ]
  exact foldl_clearStores hj

end Header

/-! ## Runs -/

variable {op : Bitmap → Bitmap}

section Run

variable {m : Nvm} {page i prepare commit : Nat} {bit : Store} {links : Links}

def runBefore (page i prepare commit : Nat) (links : Links) : List Store :=
  .mem (addr page 0) prepare :: .mem (addr page offBitIdx) i ::
    links.stores (addr page 0) (addr page offRunOn) commit

def runAfter (page : Nat) : List Store :=
  .mem (addr page 0) (usageRun ||| stateInitialized) :: .mem (addr page offBitIdx) 65535 ::
    clearStores (addr page offRunOn)

theorem runStores_eq : runStores page i prepare commit bit links =
    runBefore page i prepare commit links ++ bit :: runAfter page := rfl

/-- They go to the header, but neither to its bitmap nor to its size and version, or to a link
word. -/
theorem mem_runBefore_append (h : st ∈ runBefore page i prepare commit links ++ runAfter page) :
    (∃ off v, st = .mem (addr page off) v ∧ off < headerSize ∧ off ≠ offNBytes ∧
      off ≠ offVersion ∧ ¬(offBitmap ≤ off ∧ off < offBitIdx)) ∨
      ∃ l ∈ links.toList, st = .mem l.ptr l.value := by
  have hon : ∀ j < 4, offRunOn + 8 * j < headerSize ∧ offRunOn + 8 * j ≠ offNBytes ∧
      offRunOn + 8 * j ≠ offVersion ∧
      ¬(offBitmap ≤ offRunOn + 8 * j ∧ offRunOn + 8 * j < offBitIdx) := by
    intro j hj
    rw [offRunOn, headerSize, offNBytes, offVersion, offBitmap]
    omega
  rw [runBefore, runAfter, cons_append, cons_append, mem_cons, mem_cons,
    mem_append, mem_cons, mem_cons] at h
  rcases h with rfl | rfl | hst | rfl | rfl | hst
  · exact .inl ⟨0, _, rfl, by decide⟩
  · exact .inl ⟨offBitIdx, _, rfl, by decide⟩
  · rcases mem_linkStores hst with rfl | ⟨j, hj, v, rfl⟩ | hl
    · exact .inl ⟨0, _, rfl, by decide⟩
    · exact .inl ⟨offRunOn + 8 * j, v, rfl, hon j hj⟩
    · exact .inr hl
  · exact .inl ⟨0, _, rfl, by decide⟩
  · exact .inl ⟨offBitIdx, _, rfl, by decide⟩
  · obtain ⟨j, hj, rfl⟩ := mem_clearStores hst
    exact .inl ⟨offRunOn + 8 * j, 0, rfl, hon j hj⟩

theorem mem_runStores (h : st ∈ runStores page i prepare commit bit links) :
    st = bit ∨ st ∈ runBefore page i prepare commit links ++ runAfter page := by
  rw [runStores_eq, perm_middle.mem_iff] at h
  exact mem_cons.mp h

theorem runBefore_append_target {off : Nat} (hlt : off < headerSize) (hlinks : links.Avoid page)
    (hoff : off = offNBytes ∨ off = offVersion ∨ offBitmap ≤ off ∧ off < offBitIdx)
    (h : st ∈ runBefore page i prepare commit links ++ runAfter page) :
    st.target ≠ some (addr page off) := by
  intro heq
  rcases mem_runBefore_append h with ⟨off', v, rfl, hlt', hfields⟩ | ⟨l, hl, rfl⟩
  · have hoff' := ((addr_inj (Nat.lt_trans hlt' (by decide)) (Nat.lt_trans hlt (by decide))).mp
      (Option.some.inj heq)).2
    subst hoff'
    rcases hoff with hn | hv | hb
    · exact hfields.1 hn
    · exact hfields.2.1 hv
    · exact hfields.2.2 hb
  · exact hlinks l hl off hlt (Option.some.inj heq)

structure Flips (page i : Nat) (bit : Store) (op : Bitmap → Bitmap) : Prop where
  target : bit.target = some (addr page (offBitmap + i / 8))
  exec : ∀ m : Nvm, m.exec bit =
    m.put (addr page (offBitmap + i / 8)) (op (bitmapOf m.mem page) (i / 8))
  other : ∀ b k, k ≠ i / 8 → op b k = b k
  same : ∀ b b', b (i / 8) = b' (i / 8) → op b (i / 8) = op b' (i / 8)

theorem flips_setBit (page i : Nat) : Flips page i (.setBit page i) fun b => b.set i where
  target := rfl
  exec _ := rfl
  other _ _ hk := Function.update_of_ne hk ..
  same b b' h := by
    unfold Bitmap.set
    rw [Function.update_self, Function.update_self, h]

theorem flips_clearBit (page i : Nat) : Flips page i (.clearBit page i) fun b => b.clear i where
  target := rfl
  exec _ := rfl
  other _ _ hk := Function.update_of_ne hk ..
  same b b' h := by
    unfold Bitmap.clear
    rw [Function.update_self, Function.update_self, h]

theorem runStores_avoids {p : Nat} (hflips : Flips page i bit op)
    (h64 : 64 ≤ n) (hi : i < slots n) (hp : p ≠ page) (hlinks : links.Avoid p) :
    Avoids (runStores page i prepare commit bit links) p := by
  intro st hst off hoff heq
  have hne : ∀ {off'}, off' < 4096 → addr page off' ≠ addr p off := fun hoff' =>
    addr_ne_of_ne hp.symm hoff' (Nat.lt_trans hoff (by decide))
  have hbyte : offBitmap + i / 8 < 4096 := by
    have hlt := slots_le h64 hi
    rw [offBitmap]
    omega
  rcases mem_runStores hst with rfl | hst
  · rw [hflips.target] at heq
    exact hne hbyte (Option.some.inj heq)
  · rcases mem_runBefore_append hst with ⟨off', v, rfl, hlt, -⟩ | ⟨l, hl, rfl⟩
    · exact hne (Nat.lt_trans hlt (by decide)) (Option.some.inj heq)
    · exact hlinks l hl off hoff (Option.some.inj heq)

theorem Flips.bitmap (hflips : Flips page i bit op)
    (hlinks : links.Avoid page) {k : Nat} (hk : k < 8) :
    bitmapOf ((runStores page i prepare commit bit links).foldl Nvm.exec m).mem page k =
      op (bitmapOf m.mem page) k := by
  have hbyte : ∀ k < 8, ∀ st ∈ runBefore page i prepare commit links ++ runAfter page,
      st.target ≠ some (addr page (offBitmap + k)) := by
    intro k hk st hst
    have hlt : offBitmap + k < offBitIdx := Nat.add_lt_add_left hk offBitmap
    exact runBefore_append_target (Nat.lt_trans hlt (by decide)) hlinks
      (.inr (.inr ⟨Nat.le_add_right _ _, hlt⟩)) hst
  have hbefore : ∀ k < 8, bitmapOf ((runBefore page i prepare commit links).foldl Nvm.exec m).mem
      page k = bitmapOf m.mem page k := fun k hk =>
    foldl_exec_of_ne fun st hst => hbyte k hk st (mem_append_left _ hst)
  have hafter : ∀ m', bitmapOf ((runAfter page).foldl Nvm.exec m').mem page k =
      bitmapOf m'.mem page k := fun m' =>
    foldl_exec_of_ne fun st hst => hbyte k hk st (mem_append_right _ hst)
  rw [runStores_eq, foldl_append, foldl_cons, hafter, hflips.exec]
  by_cases heq : k = i / 8
  · subst heq
    refine Eq.trans (Function.update_self ..) (hflips.same _ _ ?_)
    exact hbefore _ hk
  · have hne : addr page (offBitmap + k) ≠ addr page (offBitmap + i / 8) := by
      intro haddr
      exact heq (Nat.add_left_cancel (Nat.add_left_cancel haddr))
    rw [hflips.other _ _ heq, ← hbefore k hk]
    exact Function.update_of_ne hne ..

theorem RunHdr.congr {m : Mem} {b b' : Nat → Prop} (h : RunHdr m page n v b)
    (hiff : ∀ j < slots n, b j ↔ b' j) : RunHdr m page n v b' :=
  ⟨h.state, h.nBytes, h.version, h.on, fun j hj => (h.bits j hj).trans (hiff j hj)⟩

theorem RunHdr.call {b : Nat → Prop}
    (h : RunHdr m.mem page n v b) (h64 : 64 ≤ n) (hflips : Flips page i bit op)
    (hi : i < slots n) (hlinks : links.Avoid page) {b' : Nat → Prop}
    (hop : ∀ j < slots n, (op (bitmapOf m.mem page)).test j = true ↔ b' j) :
    RunHdr ((runStores page i prepare commit bit links).foldl Nvm.exec m).mem page n v b' := by
  have hbyte : offBitmap + i / 8 < headerSize := by
    have hlt := slots_le h64 hi
    rw [offBitmap, headerSize]
    omega
  have hfield : ∀ off, off < offBitmap ∨ offBitIdx ≤ off → off = offNBytes ∨ off = offVersion →
      ((runStores page i prepare commit bit links).foldl Nvm.exec m).mem (addr page off) =
        m.mem (addr page off) := by
    intro off hrange hoff
    have hlt : off < headerSize := by
      rcases hoff with rfl | rfl <;> decide
    refine foldl_exec_of_ne fun st hst heq => ?_
    rcases mem_runStores hst with rfl | hst
    · rw [hflips.target] at heq
      have hbit := ((addr_inj (Nat.lt_trans hbyte (by decide)) (Nat.lt_trans hlt (by decide))).mp
        (Option.some.inj heq)).2
      have hbits := slots_le h64 hi
      rw [offBitmap, offBitIdx] at hrange
      rw [offBitmap] at hbit
      omega
    · exact runBefore_append_target hlt hlinks (hoff.imp_right .inl) hst heq
  refine ⟨?_, (hfield _ (.inl (by decide)) (.inl rfl)).trans h.nBytes,
    (hfield _ (.inr (by decide)) (.inr rfl)).trans h.version, fun j hj => ?_, fun j hj => ?_⟩
  · have happ : runStores page i prepare commit bit links =
        (runBefore page i prepare commit links ++ [bit]) ++ runAfter page := by
      rw [runStores_eq, append_assoc]
      rfl
    rw [happ]
    refine foldl_exec_append fun st hst heq => ?_
    rcases mem_cons.mp hst with rfl | hst
    · exact absurd ((addr_inj (by decide) (by decide)).mp (Option.some.inj heq)).2 (by decide)
    · obtain ⟨k, hk, rfl⟩ := mem_clearStores hst
      have hoff : offRunOn + 8 * k < 4096 ∧ offRunOn + 8 * k ≠ 0 := by
        rw [offRunOn]
        omega
      exact hoff.2 ((addr_inj hoff.1 (by decide)).mp (Option.some.inj heq)).2
  · have happ : runStores page i prepare commit bit links =
        (runBefore page i prepare commit links ++ bit ::
          [.mem (addr page 0) (usageRun ||| stateInitialized), .mem (addr page offBitIdx) 65535]) ++
          clearStores (addr page offRunOn) := by
      rw [runStores_eq, append_assoc]
      rfl
    rw [happ]
    exact foldl_clearStores hj
  · rw [← hop j hj, Bitmap.test, Bitmap.test, hflips.bitmap hlinks]
    have hlt := slots_le h64 hj
    omega

end Run

end Pmdk.NvMalloc
