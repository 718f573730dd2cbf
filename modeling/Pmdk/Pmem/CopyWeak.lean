import Pmdk.Pmem.Copy

/-!
# The copy routines without a fence

With `clflushopt` or `clwb` none of the routines executes a fence or a `clflush`, so none of
them makes a byte durable that was not.
-/

namespace Pmdk.Pmem

open Cache List

def AllWeak (is : List Instr) : Prop := ∀ i ∈ is, Weak i = true

def Flush.IsWeak (flush : Flush) : Prop := flush = .clflushopt ∨ flush = .clwb

theorem AllWeak.append {is is' : List Instr} (h : AllWeak is) (h' : AllWeak is') :
    AllWeak (is ++ is') :=
  forall_mem_append.mpr ⟨h, h'⟩

theorem allWeak_nil : AllWeak [] := forall_mem_nil _

theorem allWeak_map {α : Type} {f : α → Instr} (h : ∀ a, Weak (f a) = true) (l : List α) :
    AllWeak (l.map f) := by
  intro i hi
  obtain ⟨a, -, rfl⟩ := mem_map.mp hi
  exact h a

variable {flush : Flush}

theorem allWeak_flush64b (h : flush.IsWeak) (addr : Nat) : AllWeak (flush.flush64b addr) := by
  rcases h with rfl | rfl
  · exact forall_mem_singleton.mpr rfl
  · exact forall_mem_singleton.mpr rfl

theorem allWeak_nolog (h : flush.IsWeak) (addr len : Nat) : AllWeak (flush.nolog addr len) := by
  unfold Flush.nolog
  generalize addr - addr % 64 = uptr
  generalize addr + len = stop
  fun_induction flushLoop flush uptr stop with
  | case1 uptr hlt ih => exact (allWeak_flush64b h uptr).append ih
  | case2 uptr hlt => exact allWeak_nil

theorem maybeBarrier_of_isWeak (h : flush.IsWeak) : flush.maybeBarrier = [] := by
  rcases h with rfl | rfl <;> rfl

section Vector

variable (isa : Isa)

theorem allWeak_small8Noflush (dest len : Nat) : AllWeak (small8Noflush dest len) := by
  unfold small8Noflush
  split_ifs <;> simp [AllWeak, Weak]

theorem allWeak_small (h : flush.IsWeak) (dest len : Nat) : AllWeak (small isa flush dest len) := by
  refine AllWeak.append ?_ (allWeak_nolog h dest len)
  cases isa with
  | sse2 =>
    change AllWeak (smallSse2Noflush dest len)
    unfold smallSse2Noflush
    split
    · exact allWeak_small8Noflush dest len
    · split_ifs <;> simp [AllWeak, Weak]
  | avx =>
    change AllWeak (smallAvxNoflush dest len)
    unfold smallAvxNoflush
    split
    · exact allWeak_small8Noflush dest len
    · split_ifs <;> simp [AllWeak, Weak]
  | avx512f =>
    change AllWeak (smallAvxNoflush dest len)
    unfold smallAvxNoflush
    split
    · exact allWeak_small8Noflush dest len
    · split_ifs <;> simp [AllWeak, Weak]

theorem allWeak_movBlock (h : flush.IsWeak) (k dest : Nat) :
    AllWeak (movBlock isa flush k dest) := by
  refine AllWeak.append (allWeak_map (fun _ => rfl) _) fun i hi => ?_
  obtain ⟨j, -, hj⟩ := mem_flatMap.mp hi
  exact allWeak_flush64b h _ i hj

theorem allWeak_movntBlock (k dest : Nat) : AllWeak (movntBlock isa k dest) :=
  allWeak_map (fun _ => rfl) _

theorem allWeak_movTail (h : flush.IsWeak) (dest len : Nat) :
    AllWeak (movTail isa flush dest len) := by
  unfold movTail
  split
  · exact allWeak_nil
  · exact allWeak_small isa h dest len

theorem allWeak_movntTail (h : flush.IsWeak) (dest len : Nat) :
    AllWeak (movntTail isa flush dest len) := by
  have hone : ∀ n, AllWeak [.ntstore dest n] := fun n => forall_mem_singleton.mpr rfl
  unfold movntTail
  split_ifs
  · exact allWeak_nil
  · cases isa with
    | sse2 => exact (hone 16).append (forall_mem_singleton.mpr rfl)
    | avx => exact hone 32
    | avx512f => exact hone 32
  · exact hone 16
  · exact hone 8
  · exact hone 4
  · exact allWeak_small isa h dest len

section Loops

variable {block tail : Nat → Nat → List Instr} (hblock : ∀ k dest, AllWeak (block k dest))
  (htail : ∀ dest len, AllWeak (tail dest len))

include hblock htail

theorem allWeak_restFw (ks : List Nat) (dest len : Nat) :
    AllWeak (restFw block tail ks dest len) := by
  induction ks generalizing dest len with
  | nil => exact htail dest len
  | cons k ks ih =>
    rw [restFw]
    split
    · exact (hblock k dest).append (ih _ _)
    · exact ih dest len

theorem allWeak_loopFw (k : Nat) (ks : List Nat) (dest len : Nat) :
    AllWeak (loopFw block tail k ks dest len) := by
  fun_induction loopFw block tail k ks dest len with
  | case1 dest len hle ih => exact (hblock k dest).append ih
  | case2 dest len hle => exact allWeak_restFw hblock htail ks dest len

theorem allWeak_restBw (ks : List Nat) (dest len : Nat) :
    AllWeak (restBw block tail ks dest len) := by
  induction ks generalizing dest len with
  | nil => exact htail _ len
  | cons k ks ih =>
    rw [restBw]
    split
    · exact (hblock k _).append (ih _ _)
    · exact ih dest len

theorem allWeak_loopBw (k : Nat) (ks : List Nat) (dest len : Nat) :
    AllWeak (loopBw block tail k ks dest len) := by
  fun_induction loopBw block tail k ks dest len with
  | case1 dest len hle ih => exact (hblock k _).append ih
  | case2 dest len hle => exact allWeak_restBw hblock htail ks dest len

theorem allWeak_copyFw (h : flush.IsWeak) (dest len : Nat) :
    AllWeak (copyFw isa flush block tail dest len) := by
  unfold copyFw
  split
  · exact (allWeak_small isa h _ _).append (allWeak_loopFw hblock htail _ _ _ _)
  · exact allWeak_loopFw hblock htail _ _ _ _

theorem allWeak_copyBw (h : flush.IsWeak) (dest len : Nat) :
    AllWeak (copyBw isa flush block tail dest len) := by
  unfold copyBw
  dsimp only
  split
  · exact (allWeak_small isa h _ _).append (allWeak_loopBw hblock htail _ _ _ _)
  · exact allWeak_loopBw hblock htail _ _ _ _

end Loops

variable (dest src len : Nat)

theorem allWeak_memmoveMov (h : flush.IsWeak) : AllWeak (memmoveMov isa flush dest src len) := by
  unfold memmoveMov
  split
  · exact allWeak_copyFw isa (allWeak_movBlock isa h) (allWeak_movTail isa h) h dest len
  · exact allWeak_copyBw isa (allWeak_movBlock isa h) (allWeak_movTail isa h) h dest len

theorem allWeak_memmoveMovnt (h : flush.IsWeak) :
    AllWeak (memmoveMovnt isa flush dest src len) := by
  unfold memmoveMovnt
  rw [maybeBarrier_of_isWeak h, append_nil]
  split
  · exact allWeak_copyFw isa (allWeak_movntBlock isa) (allWeak_movntTail isa h) h dest len
  · exact allWeak_copyBw isa (allWeak_movntBlock isa) (allWeak_movntTail isa h) h dest len

theorem allWeak_memsetMovnt (h : flush.IsWeak) : AllWeak (memsetMovnt isa flush dest len) := by
  unfold memsetMovnt
  rw [maybeBarrier_of_isWeak h, append_nil]
  exact allWeak_copyFw isa (allWeak_movntBlock isa) (allWeak_movntTail isa h) h dest len

theorem allWeak_template {threshold : Nat} {flags : UInt32} {mov movnt : Flush → List Instr}
    (hflags : flags &&& memNoflush = 0) (hmov : AllWeak (mov flush))
    (hmovnt : AllWeak (movnt flush)) : AllWeak (template threshold len flags mov movnt flush) := by
  unfold template
  rw [if_neg (not_not.mpr hflags)]
  split_ifs
  · exact hmovnt
  · exact hmov
  · exact hmov
  · exact hmovnt

end Vector

section Nodrain

variable {funcs : Funcs} (h : funcs.flush.IsWeak) (flags : UInt32)

include h

theorem allWeak_flushFlags (addr len : Nat) : AllWeak (funcs.flushFlags addr len flags) := by
  unfold Funcs.flushFlags
  split
  · exact allWeak_nolog h addr len
  · exact allWeak_nil

theorem allWeak_remaining (dest len : Nat) :
    AllWeak (if len = 0 then [] else funcs.flushFlags dest len flags) := by
  split
  · exact allWeak_nil
  · exact allWeak_flushFlags h flags dest len

theorem allWeak_genericFw (dest len : Nat) : AllWeak (genericFw funcs flags dest len) := by
  fun_induction genericFw funcs flags dest len with
  | case1 dest len hle ih =>
    exact ((allWeak_map (fun _ => rfl) _).append (allWeak_flushFlags h flags _ _)).append ih
  | case2 dest len hlt =>
    exact ((allWeak_map (fun _ => rfl) _).append (allWeak_map (fun _ => rfl) _)).append
      (allWeak_remaining h flags dest len)

theorem allWeak_genericBw (dest len : Nat) : AllWeak (genericBw funcs flags dest len) := by
  fun_induction genericBw funcs flags dest len with
  | case1 dest len hle ih =>
    exact ((allWeak_map (fun _ => rfl) _).append (allWeak_flushFlags h flags _ _)).append ih
  | case2 dest len hlt =>
    exact ((allWeak_map (fun _ => rfl) _).append (allWeak_map (fun _ => rfl) _)).append
      (allWeak_remaining h flags _ len)

theorem allWeak_copyGenericFw (dest len : Nat) : AllWeak (copyGenericFw funcs dest len flags) := by
  unfold copyGenericFw
  split
  · exact ((allWeak_map (fun _ => rfl) _).append (allWeak_flushFlags h flags _ _)).append
      (allWeak_genericFw h flags _ _)
  · exact allWeak_genericFw h flags _ _

theorem allWeak_copyGenericBw (dest len : Nat) : AllWeak (copyGenericBw funcs dest len flags) := by
  unfold copyGenericBw
  dsimp only
  split
  · exact ((allWeak_map (fun _ => rfl) _).append (allWeak_flushFlags h flags _ _)).append
      (allWeak_genericBw h flags _ _)
  · exact allWeak_genericBw h flags _ _

theorem allWeak_nodrainLibc (dest len : Nat) : AllWeak (nodrainLibc funcs dest len flags) :=
  (allWeak_map (fun _ => rfl) _).append (allWeak_flushFlags h flags dest len)

variable {flags} (hdeep : funcs.flush = funcs.deepFlush) (hflags : flags &&& memNoflush = 0)

include hdeep hflags

theorem allWeak_memmoveNodrain (dest src len : Nat) :
    AllWeak (funcs.memmoveNodrain dest src len flags) := by
  unfold Funcs.memmoveNodrain
  split
  · exact allWeak_nodrainLibc h flags dest len
  · unfold memmoveNodrainGeneric
    split
    · exact allWeak_copyGenericFw h flags dest len
    · exact allWeak_copyGenericBw h flags dest len
  · rename_i isa _
    unfold memmoveNodrainIsa
    split
    · exact allWeak_nil
    · exact allWeak_template len hflags (allWeak_memmoveMov isa dest src len (hdeep ▸ h))
        (allWeak_memmoveMovnt isa dest src len (hdeep ▸ h))

theorem allWeak_memsetNodrain (dest len : Nat) : AllWeak (funcs.memsetNodrain dest len flags) := by
  unfold Funcs.memsetNodrain
  split
  · exact allWeak_nodrainLibc h flags dest len
  · exact allWeak_copyGenericFw h flags dest len
  · rename_i isa _
    unfold memsetNodrainIsa
    split
    · exact allWeak_nil
    · have hweak : funcs.deepFlush.IsWeak := hdeep ▸ h
      exact allWeak_template len hflags
        (allWeak_copyFw isa (allWeak_movBlock isa hweak) (allWeak_movTail isa hweak) hweak _ _)
        (allWeak_memsetMovnt isa dest len hweak)

end Nodrain

end Pmdk.Pmem
