import Pmdk.Pmem.Copy

/-!
# When the copy routines persist

The routines bring every byte of the destination to the level of their flush instruction: durable
with `clflush`, otherwise pending, for which the fence of `pmem_drain` is made.
-/

namespace Pmdk.Pmem

open Cache List

def Flush.reach : Flush → Status
  | .clflush => .durable
  | .clflushopt => .pending
  | .clwb => .pending
  | .empty => .dirty

/-! ## Flushing a range -/

variable {s : Set Nat}

theorem raises_flush64b (flush : Flush) {addr : Nat}
    (hs : ∀ b ∈ s, line b = line addr) : Raises (flush.flush64b addr) s flush.reach := by
  constructor
  · intro st b hb
    cases flush with
    | clflush =>
      rw [Flush.flush64b, run_cons, run_nil, exec, if_pos (hs b hb)]
      exact Status.le_refl _
    | clflushopt =>
      rw [Flush.flush64b, run_cons, run_nil, exec, if_pos (hs b hb)]
      exact Status.pending_le_flush _
    | clwb =>
      rw [Flush.flush64b, run_cons, run_nil, exec, if_pos (hs b hb)]
      exact Status.pending_le_flush _
    | empty => exact Nat.zero_le _
  · intro st b _
    cases flush with
    | clflush =>
      rw [Flush.flush64b, run_cons, run_nil, exec]
      split
      · exact Status.le_durable _
      · exact Status.le_refl _
    | clflushopt =>
      rw [Flush.flush64b, run_cons, run_nil, exec]
      split
      · exact Status.le_flush _
      · exact Status.le_refl _
    | clwb =>
      rw [Flush.flush64b, run_cons, run_nil, exec]
      split
      · exact Status.le_flush _
      · exact Status.le_refl _
    | empty => exact Status.le_refl _

theorem raises_flushLoop (flush : Flush) {uptr stop : Nat} (haligned : uptr % 64 = 0)
    (hs : ∀ b ∈ s, uptr ≤ b ∧ b < stop) : Raises (flushLoop flush uptr stop) s flush.reach := by
  fun_induction flushLoop flush uptr stop generalizing s with
  | case1 uptr hlt ih =>
    have hline : ∀ b ∈ s ∩ {b | b < uptr + 64}, line b = line uptr := by
      intro b hb
      have hb' := hs b hb.1
      have hlt : b < uptr + 64 := hb.2
      rw [line, line, lineSize]
      omega
    have hrest : ∀ b ∈ s ∩ {b | uptr + 64 ≤ b}, uptr + 64 ≤ b ∧ b < stop := by
      intro b hb
      exact ⟨hb.2, (hs b hb.1).2⟩
    refine ((raises_flush64b flush hline).append (ih (by omega) hrest)).congr fun b => ?_
    constructor
    · rintro (hb | hb)
      · exact hb.1
      · exact hb.1
    · intro hb
      by_cases hlt : b < uptr + 64
      · exact .inl ⟨hb, hlt⟩
      · exact .inr ⟨hb, Nat.not_lt.mp hlt⟩
  | case2 uptr hlt =>
    refine (Raises.nil _).congr fun b => ?_
    constructor
    · exact False.elim
    · intro hb
      have hb' := hs b hb
      exact absurd (Nat.lt_of_le_of_lt hb'.1 hb'.2) hlt

theorem raises_nolog (flush : Flush) (addr len : Nat) :
    Raises (flush.nolog addr len) (range addr len) flush.reach := by
  refine raises_flushLoop flush (by omega) fun b hb => ?_
  rw [Set.mem_Ico] at hb
  omega

theorem raises_lines (flush : Flush) {dest : Nat} (haligned : dest % 64 = 0) (k : Nat) :
    Raises ((List.range k).flatMap fun i => flush.flush64b (dest + i * 64))
      (range dest (k * 64)) flush.reach := by
  induction k with
  | zero =>
    refine (Raises.nil _).congr fun b => ?_
    simp
  | succ k ih =>
    rw [range_succ, flatMap_append]
    refine ih.append_range ?_ (Nat.succ_mul k 64).symm
    rw [flatMap_cons, flatMap_nil, append_nil]
    refine raises_flush64b flush fun b hb => ?_
    rw [Set.mem_Ico] at hb
    rw [line, line, lineSize]
    omega

/-! ## Copying with vector registers -/

theorem storesIn_small8Noflush {dest len : Nat} (hpos : 0 < len) (hle : len ≤ 8) :
    StoresIn (small8Noflush dest len) (range dest len) := by
  unfold small8Noflush
  split_ifs <;>
  · intro i hi
    simp only [mem_cons, not_mem_nil, or_false] at hi
    rcases hi with rfl | rfl <;> exact ⟨_, _, rfl, range_subset (by omega) (by omega)⟩

theorem storesIn_smallSse2Noflush {dest len : Nat} (hpos : 0 < len) (hle : len ≤ 64) :
    StoresIn (smallSse2Noflush dest len) (range dest len) := by
  unfold smallSse2Noflush
  split
  · exact storesIn_small8Noflush hpos (by omega)
  · split_ifs <;>
    · intro i hi
      simp only [mem_cons, not_mem_nil, or_false] at hi
      rcases hi with rfl | rfl | rfl | rfl <;> exact ⟨_, _, rfl, range_subset (by omega) (by omega)⟩

theorem storesIn_smallAvxNoflush {dest len : Nat} (hpos : 0 < len) (hle : len ≤ 64) :
    StoresIn (smallAvxNoflush dest len) (range dest len) := by
  unfold smallAvxNoflush
  split
  · exact storesIn_small8Noflush hpos (by omega)
  · split_ifs <;>
    · intro i hi
      simp only [mem_cons, not_mem_nil, or_false] at hi
      rcases hi with rfl | rfl <;> exact ⟨_, _, rfl, range_subset (by omega) (by omega)⟩

theorem raises_small (isa : Isa) (flush : Flush) {dest len : Nat} (hpos : 0 < len)
    (hle : len ≤ 64) : Raises (small isa flush dest len) (range dest len) flush.reach := by
  refine Raises.of_stores ?_ (raises_nolog flush dest len)
  cases isa with
  | sse2 => exact storesIn_smallSse2Noflush hpos hle
  | avx => exact storesIn_smallAvxNoflush hpos hle
  | avx512f => exact storesIn_smallAvxNoflush hpos hle

theorem width_mul_div (isa : Isa) (k : Nat) : k * 64 / isa.width * isa.width = k * 64 := by
  cases isa <;> simp only [Isa.width] <;> omega

theorem raises_movBlock (isa : Isa) (flush : Flush) (k : Nat) {dest : Nat}
    (haligned : dest % 64 = 0) :
    Raises (movBlock isa flush k dest) (range dest (k * 64)) flush.reach := by
  refine Raises.of_stores ?_ (raises_lines flush haligned k)
  have hstores := storesIn_range dest isa.width (k * 64 / isa.width)
  rw [width_mul_div] at hstores
  exact hstores

theorem raises_movntBlock (isa : Isa) (k dest : Nat) :
    Raises (movntBlock isa k dest) (range dest (k * 64)) .pending := by
  have hstores := raises_ntstores dest isa.width (k * 64 / isa.width)
  rw [width_mul_div] at hstores
  exact hstores

theorem raises_movTail (isa : Isa) (flush : Flush) {dest len : Nat} (hlt : len < 64) :
    Raises (movTail isa flush dest len) (range dest len) flush.reach := by
  unfold movTail
  split
  · rename_i hzero
    refine (Raises.nil _).congr fun b => ?_
    simp [hzero]
  · exact raises_small isa flush (by omega) (by omega)

theorem raises_movntTail (isa : Isa) {flush : Flush} (hflush : .pending ≤ flush.reach)
    {dest len : Nat} (hlt : len < 64) :
    Raises (movntTail isa flush dest len) (range dest len) .pending := by
  unfold movntTail
  split_ifs with hzero h32 h16 h8 h4
  · refine (Raises.nil _).congr fun b => ?_
    simp [hzero]
  · rw [h32]
    cases isa with
    | sse2 => exact (raises_ntstore dest 16).append_range (raises_ntstore (dest + 16) 16) rfl
    | avx => exact raises_ntstore dest 32
    | avx512f => exact raises_ntstore dest 32
  · rw [h16]
    exact raises_ntstore dest 16
  · rw [h8]
    exact raises_ntstore dest 8
  · rw [h4]
    exact raises_ntstore dest 4
  · exact (raises_small isa flush (by omega) (by omega)).mono hflush

def Halves : Nat → List Nat → Prop
  | k, [] => k ≤ 1
  | k, k' :: ks => 0 < k' ∧ k ≤ 2 * k' ∧ Halves k' ks

theorem halves_rest (isa : Isa) : 0 < isa.loop ∧ Halves isa.loop isa.rest := by
  cases isa <;> simp [Isa.loop, Isa.rest, Halves]

variable {ks : List Nat}

section Loops

variable {block tail : Nat → Nat → List Instr} {l : Status}
  (hblock : ∀ k dest, dest % 64 = 0 → Raises (block k dest) (range dest (k * 64)) l)
  (htail : ∀ dest len, len < 64 → Raises (tail dest len) (range dest len) l)

include hblock htail

theorem raises_restFw {k dest len : Nat}
    (hks : Halves k ks) (hlen : len < k * 64) (haligned : len ≠ 0 → dest % 64 = 0) :
    Raises (restFw block tail ks dest len) (range dest len) l := by
  induction ks generalizing k dest len with
  | nil =>
    have hk : k ≤ 1 := hks
    exact htail dest len (by omega)
  | cons k' ks ih =>
    obtain ⟨hpos, hhalf, hrest⟩ := hks
    rw [restFw]
    split
    · exact (hblock k' dest (haligned (by omega))).append_range
        (ih hrest (by omega) fun _ => by have := haligned (by omega); omega) (by omega)
    · exact ih hrest (by omega) haligned

theorem raises_loopFw {k : Nat}
    (hk : 0 < k) (hks : Halves k ks) {dest len : Nat} (haligned : len ≠ 0 → dest % 64 = 0) :
    Raises (loopFw block tail k ks dest len) (range dest len) l := by
  fun_induction loopFw block tail k ks dest len with
  | case1 dest len hle ih =>
    exact (hblock k dest (haligned (by omega))).append_range
      (ih fun _ => by have := haligned (by omega); omega) (by omega)
  | case2 dest len hle => exact raises_restFw hblock htail hks (by omega) haligned

theorem raises_restBw {k dest len : Nat} (hks : Halves k ks) (hlen : len < k * 64)
    (hdest : len ≤ dest) (haligned : len ≠ 0 → dest % 64 = 0) :
    Raises (restBw block tail ks dest len) (range (dest - len) len) l := by
  induction ks generalizing k dest len with
  | nil =>
    have hk : k ≤ 1 := hks
    exact htail (dest - len) len (by omega)
  | cons k' ks ih =>
    obtain ⟨hpos, hhalf, hrest⟩ := hks
    rw [restBw]
    split
    · rename_i hle
      have hmod := haligned (by omega)
      have hlower := ih hrest (by omega) (show len - k' * 64 ≤ dest - k' * 64 by omega)
        fun _ => by omega
      have hupper := hblock k' (dest - k' * 64) (by omega)
      have hsub : dest - k' * 64 - (len - k' * 64) = dest - len := by omega
      have hadd : dest - k' * 64 = dest - len + (len - k' * 64) := by omega
      rw [hsub] at hlower
      rw [hadd] at hupper
      exact hadd ▸ hupper.append_range_rev (hadd ▸ hlower) (by omega)
    · exact ih hrest (by omega) hdest haligned

theorem raises_loopBw {k : Nat} (hk : 0 < k) (hks : Halves k ks) {dest len : Nat}
    (hdest : len ≤ dest) (haligned : len ≠ 0 → dest % 64 = 0) :
    Raises (loopBw block tail k ks dest len) (range (dest - len) len) l := by
  fun_induction loopBw block tail k ks dest len with
  | case1 dest len hle ih =>
    have hmod := haligned (by omega)
    have hlower := ih (by omega) fun _ => by omega
    have hupper := hblock k (dest - k * 64) (by omega)
    have hsub : dest - k * 64 - (len - k * 64) = dest - len := by omega
    have hadd : dest - k * 64 = dest - len + (len - k * 64) := by omega
    rw [hsub] at hlower
    rw [hadd] at hupper
    exact hadd ▸ hupper.append_range_rev (hadd ▸ hlower) (by omega)
  | case2 dest len hle => exact raises_restBw hblock htail hks (by omega) hdest haligned

variable {isa : Isa} {flush : Flush}

theorem raises_copyFw (hl : l ≤ flush.reach) {dest len : Nat} (hlen : len ≠ 0) :
    Raises (copyFw isa flush block tail dest len) (range dest len) l := by
  obtain ⟨hk, hks⟩ := halves_rest isa
  unfold copyFw
  split
  · dsimp only
    refine Raises.append_range ((raises_small isa flush (by omega) (by omega)).mono hl)
      (raises_loopFw hblock htail hk hks fun _ => by omega) (by omega)
  · exact raises_loopFw hblock htail hk hks fun _ => by omega

theorem raises_copyBw (hl : l ≤ flush.reach) {dest len : Nat} (hlen : len ≠ 0) :
    Raises (copyBw isa flush block tail dest len) (range dest len) l := by
  obtain ⟨hk, hks⟩ := halves_rest isa
  unfold copyBw
  dsimp only
  split
  · rename_i hmod
    generalize hcnt : min ((dest + len) % 64) len = cnt
    have hlower := raises_loopBw hblock htail hk hks
      (show len - cnt ≤ dest + len - cnt by omega) fun _ => by omega
    have hupper : Raises (small isa flush (dest + len - cnt) cnt)
        (range (dest + len - cnt) cnt) l :=
      (raises_small isa flush (by omega) (by omega)).mono hl
    have hsub : dest + len - cnt - (len - cnt) = dest := by omega
    have hadd : dest + len - cnt = dest + (len - cnt) := by omega
    rw [hsub] at hlower
    rw [hadd] at hlower hupper ⊢
    exact hupper.append_range_rev hlower (by omega)
  · have hall := raises_loopBw hblock htail hk hks (show len ≤ dest + len by omega)
      fun _ => by omega
    rw [Nat.add_sub_cancel] at hall
    exact hall

end Loops

section Vector

variable (isa : Isa) {flush : Flush} {dest src len : Nat}

theorem raises_memmoveMov (flush : Flush) (hlen : len ≠ 0) :
    Raises (memmoveMov isa flush dest src len) (range dest len) flush.reach := by
  unfold memmoveMov
  split
  · exact raises_copyFw (fun k _ h => raises_movBlock isa flush k h)
      (fun _ _ h => raises_movTail isa flush h) (Status.le_refl _) hlen
  · exact raises_copyBw (fun k _ h => raises_movBlock isa flush k h)
      (fun _ _ h => raises_movTail isa flush h) (Status.le_refl _) hlen

theorem raises_memsetMov (flush : Flush) (hlen : len ≠ 0) :
    Raises (memsetMov isa flush dest len) (range dest len) flush.reach :=
  raises_copyFw (fun k _ h => raises_movBlock isa flush k h)
    (fun _ _ h => raises_movTail isa flush h) (Status.le_refl _) hlen

theorem raises_maybeBarrier {is : List Instr} (hflush : .pending ≤ flush.reach)
    (h : Raises is s .pending) : Raises (is ++ flush.maybeBarrier) s flush.reach := by
  cases flush with
  | clflush => exact h.fence
  | clflushopt =>
    rw [Flush.maybeBarrier, append_nil]
    exact h
  | clwb =>
    rw [Flush.maybeBarrier, append_nil]
    exact h
  | empty => exact absurd hflush (by decide)

theorem raises_memmoveMovnt (hflush : .pending ≤ flush.reach) (hlen : len ≠ 0) :
    Raises (memmoveMovnt isa flush dest src len) (range dest len) flush.reach := by
  refine raises_maybeBarrier hflush ?_
  split
  · exact raises_copyFw (fun k d _ => raises_movntBlock isa k d)
      (fun _ _ h => raises_movntTail isa hflush h) hflush hlen
  · exact raises_copyBw (fun k d _ => raises_movntBlock isa k d)
      (fun _ _ h => raises_movntTail isa hflush h) hflush hlen

theorem raises_memsetMovnt (hflush : .pending ≤ flush.reach) (hlen : len ≠ 0) :
    Raises (memsetMovnt isa flush dest len) (range dest len) flush.reach :=
  raises_maybeBarrier hflush (raises_copyFw (fun k d _ => raises_movntBlock isa k d)
    (fun _ _ h => raises_movntTail isa hflush h) hflush hlen)

theorem raises_template {threshold : Nat} {flags : UInt32} {mov movnt : Flush → List Instr}
    (hflags : flags &&& memNoflush = 0)
    (hmov : Raises (mov flush) s flush.reach) (hmovnt : Raises (movnt flush) s flush.reach) :
    Raises (template threshold len flags mov movnt flush) s flush.reach := by
  unfold template
  rw [if_neg (not_not.mpr hflags)]
  split_ifs
  · exact hmovnt
  · exact hmov
  · exact hmov
  · exact hmovnt

end Vector

/-! ## The generic routines -/

section Generic

variable {funcs : Funcs} {flags : UInt32}

theorem raises_flushFlags (hflags : flags &&& memNoflush = 0) (addr len : Nat) :
    Raises (funcs.flushFlags addr len flags) (range addr len) funcs.flush.reach := by
  rw [Funcs.flushFlags, if_pos hflags]
  exact raises_nolog funcs.flush addr len

theorem storesIn_storeBytes (dest n : Nat) : StoresIn (storeBytes dest n) (range dest n) := by
  have hstores := storesIn_range dest 1 n
  simp only [Nat.mul_one] at hstores
  exact hstores

section

variable (hflags : flags &&& memNoflush = 0)

include hflags

theorem raises_cpy64 (dest : Nat) :
    Raises (cpy64 dest ++ funcs.flushFlags dest 64 flags) (range dest 64) funcs.flush.reach :=
  Raises.of_stores (storesIn_range dest 8 8) (raises_flushFlags hflags dest 64)

theorem raises_remaining {is : List Instr} {dest len : Nat} (his : StoresIn is (range dest len)) :
    Raises (is ++ if len = 0 then [] else funcs.flushFlags dest len flags) (range dest len)
      funcs.flush.reach := by
  refine Raises.of_stores his ?_
  split
  · rename_i hzero
    refine (Raises.nil _).congr fun b => ?_
    simp [hzero]
  · exact raises_flushFlags hflags dest len

theorem raises_genericFw (dest len : Nat) :
    Raises (genericFw funcs flags dest len) (range dest len) funcs.flush.reach := by
  fun_induction genericFw funcs flags dest len with
  | case1 dest len hle ih =>
    exact (raises_cpy64 hflags dest).append_range ih (by omega)
  | case2 dest len hlt =>
    refine raises_remaining hflags (StoresIn.append ?_ ?_)
    · exact (storesIn_range dest 8 (len / 8)).mono (range_subset (by omega) (by omega))
    · exact (storesIn_storeBytes _ _).mono (range_subset (by omega) (by omega))

theorem raises_genericBw {dest len : Nat} (hdest : len ≤ dest) :
    Raises (genericBw funcs flags dest len) (range (dest - len) len) funcs.flush.reach := by
  fun_induction genericBw funcs flags dest len with
  | case1 dest len hle ih =>
    have hlower := ih (by omega)
    have hupper : Raises (cpy64 (dest - 64) ++ funcs.flushFlags (dest - 64) 64 flags)
        (range (dest - 64) 64) funcs.flush.reach := raises_cpy64 hflags (dest - 64)
    have hsub : dest - 64 - (len - 64) = dest - len := by omega
    have hadd : dest - 64 = dest - len + (len - 64) := by omega
    rw [hsub] at hlower
    rw [hadd] at hupper
    exact hadd ▸ hupper.append_range_rev (hadd ▸ hlower) (by omega)
  | case2 dest len hlt =>
    refine raises_remaining hflags (StoresIn.append ?_ ?_)
    · exact (storesIn_below (w := 8) (n := len / 8) (by omega)).mono (range_subset (by omega)
        (by omega))
    · have hbytes := storesIn_below (show len % 8 * 1 ≤ dest - len / 8 * 8 by omega)
      simp only [Nat.mul_one] at hbytes
      exact hbytes.mono (range_subset (by omega) (by omega))

theorem raises_copyGenericFw (dest len : Nat) :
    Raises (copyGenericFw funcs dest len flags) (range dest len) funcs.flush.reach := by
  unfold copyGenericFw
  split
  · dsimp only
    exact (Raises.of_stores (storesIn_storeBytes _ _) (raises_flushFlags hflags _ _)).append_range
      (raises_genericFw hflags _ _) (by omega)
  · exact raises_genericFw hflags dest len

theorem raises_copyGenericBw (dest len : Nat) :
    Raises (copyGenericBw funcs dest len flags) (range dest len) funcs.flush.reach := by
  unfold copyGenericBw
  dsimp only
  split
  · generalize hcnt : min ((dest + len) % 8) len = cnt
    have hbytes := storesIn_below (show cnt * 1 ≤ dest + len by omega)
    simp only [Nat.mul_one] at hbytes
    have hflush : Raises (funcs.flushFlags (dest + len - cnt) cnt flags)
        (range (dest + len - cnt) cnt) funcs.flush.reach := raises_flushFlags hflags _ cnt
    have hupper := Raises.of_stores hbytes hflush
    have hlower : Raises (genericBw funcs flags (dest + len - cnt) (len - cnt))
        (range (dest + len - cnt - (len - cnt)) (len - cnt)) funcs.flush.reach :=
      raises_genericBw hflags (by omega)
    have hsub : dest + len - cnt - (len - cnt) = dest := by omega
    have hadd : dest + len - cnt = dest + (len - cnt) := by omega
    rw [hsub] at hlower
    rw [hadd] at hlower hupper ⊢
    exact hupper.append_range_rev hlower (by omega)
  · have hall : Raises (genericBw funcs flags (dest + len) len) (range (dest + len - len) len)
        funcs.flush.reach := raises_genericBw hflags (by omega)
    rw [Nat.add_sub_cancel] at hall
    exact hall

theorem raises_nodrainLibc (dest len : Nat) :
    Raises (nodrainLibc funcs dest len flags) (range dest len) funcs.flush.reach :=
  Raises.of_stores (storesIn_storeBytes dest len) (raises_flushFlags hflags dest len)

end

end Generic

/-! ## The chosen functions -/

section Nodrain

variable {funcs : Funcs} {flags : UInt32} {dest src len : Nat}

/-- A copy raises its destination, unless a vector routine is to copy it onto itself. -/
theorem raises_memmoveNodrain (hflush : funcs.flush = funcs.deepFlush)
    (hreach : .pending ≤ funcs.deepFlush.reach) (hflags : flags &&& memNoflush = 0)
    (hlen : len ≠ 0) (hsrc : ∀ isa, funcs.impl = .isa isa → src ≠ dest) :
    Raises (funcs.memmoveNodrain dest src len flags) (range dest len) funcs.deepFlush.reach := by
  unfold Funcs.memmoveNodrain
  split
  · exact hflush ▸ raises_nodrainLibc hflags dest len
  · rw [← hflush]
    unfold memmoveNodrainGeneric
    split
    · exact raises_copyGenericFw hflags dest len
    · exact raises_copyGenericBw hflags dest len
  · rename_i isa himpl
    rw [memmoveNodrainIsa, if_neg (not_or.mpr ⟨hlen, hsrc isa himpl⟩)]
    exact raises_template hflags (raises_memmoveMov isa funcs.deepFlush hlen)
      (raises_memmoveMovnt isa hreach hlen)

theorem raises_memsetNodrain (hflush : funcs.flush = funcs.deepFlush)
    (hreach : .pending ≤ funcs.deepFlush.reach) (hflags : flags &&& memNoflush = 0)
    (hlen : len ≠ 0) :
    Raises (funcs.memsetNodrain dest len flags) (range dest len) funcs.deepFlush.reach := by
  unfold Funcs.memsetNodrain
  split
  · exact hflush ▸ raises_nodrainLibc hflags dest len
  · exact hflush ▸ raises_copyGenericFw hflags dest len
  · rename_i isa himpl
    rw [memsetNodrainIsa, if_neg hlen]
    exact raises_template hflags (raises_memsetMov isa funcs.deepFlush hlen)
      (raises_memsetMovnt isa hreach hlen)

end Nodrain

end Pmdk.Pmem
