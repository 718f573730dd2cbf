import Pmdk.Pmem.CopyDurable
import Pmdk.Pmem.CopyWeak

/-!
# Which calls persist their destination

For every choice of functions that `pmem_init_funcs` can make on a platform that needs
flushes, and every call that promises durability, the exact condition under which each byte of
the destination is durable afterwards, whatever its state before.
-/

namespace Pmdk.Pmem

open Cache

/-! ## Initialization -/

structure Env.NeedsFlush (env : Env) : Prop where
  noFlush : env.noFlush = none
  noFence : env.noFence = none
  autoFlush : env.autoFlush = false

theorem pmemInitFuncs_flush {env : Env} (h : env.NeedsFlush) :
    (pmemInitFuncs env).flush = (pmemInitFuncs env).deepFlush := by
  have hflushes : env.flushes = true := by
    simp [Env.flushes, h.noFlush, h.autoFlush]
  simp [pmemInitFuncs, hflushes]

theorem pmemInitFuncs_deepFlush {env : Env} (h : env.NeedsFlush) :
    (pmemInitFuncs env).deepFlush = .clflush ∨
      (pmemInitFuncs env).deepFlush.IsWeak ∧ (pmemInitFuncs env).predrainFence = true := by
  have hflushes : env.flushes = true := by
    simp [Env.flushes, h.noFlush, h.autoFlush]
  by_cases hclwb : env.cpuClwb = true ∧ env.noClwb ≠ some "1"
  · refine .inr ⟨.inr ?_, ?_⟩
    · simp [pmemInitFuncs, Env.deepFlush, hclwb]
    · simp [pmemInitFuncs, h.noFence, hflushes, Env.predrainBarrier, hclwb]
  · by_cases hopt : env.noClflushopt ≠ some "1"
    · refine .inr ⟨.inl ?_, ?_⟩
      · rw [pmemInitFuncs, Env.deepFlush, if_neg hclwb, if_pos hopt]
      · simp [pmemInitFuncs, h.noFence, hflushes, Env.predrainBarrier, hopt]
    · refine .inl ?_
      rw [pmemInitFuncs, Env.deepFlush, if_neg hclwb, if_neg hopt]

theorem pending_le_reach {flush : Flush} (h : flush = .clflush ∨ flush.IsWeak) :
    .pending ≤ flush.reach := by
  rcases h with rfl | rfl | rfl <;> decide

/-! ## One call -/

def Durable (is : List Instr) (dest len : Nat) : Prop :=
  ∀ st, ∀ b ∈ range dest len, run is st b = .durable

section Body

variable {env : Env} {is : List Instr} {dest len : Nat} {skip : Prop}

theorem durable_of_raises (h : Raises is (range dest len) .durable) : Durable is dest len :=
  fun st b hb => Status.eq_durable (h.inside st b hb)

theorem durable_iff (henv : env.NeedsFlush)
    (hraises : len ≠ 0 → ¬ skip →
      Raises is (range dest len) (pmemInitFuncs env).deepFlush.reach) (hskip : skip → is = [])
    (hweak : (pmemInitFuncs env).deepFlush.IsWeak → AllWeak is) :
    Durable is dest len ↔ len = 0 ∨ (pmemInitFuncs env).deepFlush = .clflush ∧ ¬ skip := by
  constructor
  · intro h
    by_cases hlen : len = 0
    · exact .inl hlen
    have hdest := h (fun _ => .dirty) dest (Set.mem_Ico.mpr ⟨Nat.le_refl _, by omega⟩)
    refine .inr ⟨?_, fun hs => ?_⟩
    · rcases pmemInitFuncs_deepFlush henv with hcl | ⟨hw, -⟩
      · exact hcl
      · exact absurd hdest (run_ne_durable (hweak hw) (by decide))
    · rw [hskip hs] at hdest
      cases hdest
  · rintro (hlen | ⟨hcl, hs⟩)
    · intro st b hb
      rw [hlen, Set.mem_Ico] at hb
      omega
    · by_cases hlen : len = 0
      · intro st b hb
        rw [hlen, Set.mem_Ico] at hb
        omega
      · have hraise := hraises hlen hs
        rw [hcl] at hraise
        exact durable_of_raises hraise

theorem durable_drain_iff (henv : env.NeedsFlush)
    (hraises : len ≠ 0 → ¬ skip →
      Raises is (range dest len) (pmemInitFuncs env).deepFlush.reach) (hskip : skip → is = []) :
    Durable (is ++ pmemDrain (pmemInitFuncs env)) dest len ↔ len = 0 ∨ ¬ skip := by
  constructor
  · intro h
    by_cases hlen : len = 0
    · exact .inl hlen
    refine .inr fun hs => ?_
    have hdest := h (fun _ => .dirty) dest (Set.mem_Ico.mpr ⟨Nat.le_refl _, by omega⟩)
    rw [hskip hs, List.nil_append, pmemDrain] at hdest
    split at hdest <;> cases hdest
  · intro h
    by_cases hlen : len = 0
    · intro st b hb
      rw [hlen, Set.mem_Ico] at hb
      omega
    · have hraise := hraises hlen (h.resolve_left hlen)
      apply durable_of_raises
      rcases pmemInitFuncs_deepFlush henv with hcl | ⟨hw, hfence⟩
      · rw [hcl] at hraise
        unfold pmemDrain
        split
        · exact (hraise.mono (by decide : Status.pending ≤ .durable)).fence
        · rw [List.append_nil]
          exact hraise
      · rw [pmemDrain, if_pos hfence]
        exact (hraise.mono (pending_le_reach (.inr hw))).fence

end Body

/-! ## All calls -/

/-- The flags contain neither `NODRAIN` nor `NOFLUSH`. -/
def Call.Allowed : Call → Prop
  | .memmove _ _ _ flags => flags &&& memNodrain = 0 ∧ flags &&& memNoflush = 0
  | .memcpy _ _ _ flags => flags &&& memNodrain = 0 ∧ flags &&& memNoflush = 0
  | .memset _ _ flags => flags &&& memNodrain = 0 ∧ flags &&& memNoflush = 0
  | _ => True

def Call.Persists (funcs : Funcs) (c : Call) : Prop :=
  match c with
  | .memmove dest _ len _ => Durable (c.instrs funcs) dest len
  | .memcpy dest _ len _ => Durable (c.instrs funcs) dest len
  | .memset dest len _ => Durable (c.instrs funcs) dest len
  | .memmovePersist dest _ len => Durable (c.instrs funcs) dest len
  | .memcpyPersist dest _ len => Durable (c.instrs funcs) dest len
  | .memsetPersist dest len => Durable (c.instrs funcs) dest len
  | .memmoveNodrain dest _ len => Durable (c.instrs funcs) dest len
  | .memcpyNodrain dest _ len => Durable (c.instrs funcs) dest len
  | .memsetNodrain dest len => Durable (c.instrs funcs) dest len

def OntoItself (funcs : Funcs) (dest src : Nat) : Prop :=
  (∃ isa, funcs.impl = .isa isa) ∧ src = dest

def Call.HoldsWhen (funcs : Funcs) : Call → Prop
  | .memmove dest src len _ =>
    len = 0 ∨ funcs.deepFlush = .clflush ∧ ¬ OntoItself funcs dest src
  | .memcpy dest src len _ =>
    len = 0 ∨ funcs.deepFlush = .clflush ∧ ¬ OntoItself funcs dest src
  | .memset _ len _ => len = 0 ∨ funcs.deepFlush = .clflush
  | .memmovePersist dest src len =>
    len = 0 ∨ funcs.deepFlush = .clflush ∧ ¬ OntoItself funcs dest src
  | .memcpyPersist dest src len =>
    len = 0 ∨ funcs.deepFlush = .clflush ∧ ¬ OntoItself funcs dest src
  | .memsetPersist _ len => len = 0 ∨ funcs.deepFlush = .clflush
  | .memmoveNodrain dest src len => len = 0 ∨ ¬ OntoItself funcs dest src
  | .memcpyNodrain dest src len => len = 0 ∨ ¬ OntoItself funcs dest src
  | .memsetNodrain _ _ => True

section Calls

variable {env : Env} (henv : env.NeedsFlush) {flags : UInt32}
  (hflags : flags &&& ~~~memNodrain &&& memNoflush = 0) (dest src len : Nat)

include henv hflags

theorem raises_pmemMemmove (hlen : len ≠ 0) (hskip : ¬ OntoItself (pmemInitFuncs env) dest src) :
    Raises (pmemMemmove (pmemInitFuncs env) dest src len flags) (range dest len)
      (pmemInitFuncs env).deepFlush.reach := by
  refine raises_memmoveNodrain (pmemInitFuncs_flush henv) ?_ hflags hlen ?_
  · exact pending_le_reach ((pmemInitFuncs_deepFlush henv).imp_right And.left)
  · intro isa himpl hsrc
    exact hskip ⟨⟨isa, himpl⟩, hsrc⟩

omit henv hflags in
theorem pmemMemmove_ontoItself {funcs : Funcs} (h : OntoItself funcs dest src)
    (flags : UInt32) : pmemMemmove funcs dest src len flags = [] := by
  obtain ⟨⟨isa, himpl⟩, hsrc⟩ := h
  rw [pmemMemmove, Funcs.memmoveNodrain, himpl]
  exact if_pos (.inr hsrc)

theorem durable_pmemMemmove_iff :
    Durable (pmemMemmove (pmemInitFuncs env) dest src len flags) dest len ↔
      len = 0 ∨ (pmemInitFuncs env).deepFlush = .clflush ∧
        ¬ OntoItself (pmemInitFuncs env) dest src := by
  refine durable_iff henv (raises_pmemMemmove henv hflags dest src len)
    (fun h => pmemMemmove_ontoItself dest src len h flags) fun hw => ?_
  exact allWeak_memmoveNodrain (pmemInitFuncs_flush henv ▸ hw) (pmemInitFuncs_flush henv) hflags
    dest src len

theorem durable_pmemMemmove_drain_iff :
    Durable (pmemMemmove (pmemInitFuncs env) dest src len flags ++
        pmemDrain (pmemInitFuncs env)) dest len ↔
      len = 0 ∨ ¬ OntoItself (pmemInitFuncs env) dest src :=
  durable_drain_iff henv (raises_pmemMemmove henv hflags dest src len)
    fun h => pmemMemmove_ontoItself dest src len h flags

theorem raises_pmemMemset (hlen : len ≠ 0) :
    Raises (pmemMemset (pmemInitFuncs env) dest len flags) (range dest len)
      (pmemInitFuncs env).deepFlush.reach := by
  refine raises_memsetNodrain (pmemInitFuncs_flush henv) ?_ hflags hlen
  exact pending_le_reach ((pmemInitFuncs_deepFlush henv).imp_right And.left)

theorem durable_pmemMemset_iff :
    Durable (pmemMemset (pmemInitFuncs env) dest len flags) dest len ↔
      len = 0 ∨ (pmemInitFuncs env).deepFlush = .clflush := by
  have hiff := durable_iff henv
    (fun hlen (_ : ¬ False) => raises_pmemMemset henv hflags dest len hlen) False.elim fun hw =>
      allWeak_memsetNodrain (pmemInitFuncs_flush henv ▸ hw) (pmemInitFuncs_flush henv) hflags
        dest len
  rw [not_false_eq_true, and_true] at hiff
  exact hiff

theorem durable_pmemMemset_drain :
    Durable (pmemMemset (pmemInitFuncs env) dest len flags ++
      pmemDrain (pmemInitFuncs env)) dest len :=
  (durable_drain_iff henv (fun hlen (_ : ¬ False) => raises_pmemMemset henv hflags dest len hlen)
    False.elim).mpr (.inr id)

end Calls

theorem noflush_of_noflush {flags : UInt32} (h : flags &&& memNoflush = 0) :
    flags &&& ~~~memNodrain &&& memNoflush = 0 := by
  have hswap : ~~~memNodrain &&& memNoflush = memNoflush := by decide
  rw [UInt32.and_assoc, hswap, h]

/-- The calls that promise durability keep the promise under the condition, and only then. -/
theorem persists_iff {env : Env} (henv : env.NeedsFlush) {c : Call} (hc : c.Allowed) :
    c.Persists (pmemInitFuncs env) ↔ c.HoldsWhen (pmemInitFuncs env) := by
  cases c with
  | memmove dest src len flags =>
    exact durable_pmemMemmove_iff henv (noflush_of_noflush hc.2) dest src len
  | memcpy dest src len flags =>
    exact durable_pmemMemmove_iff henv (noflush_of_noflush hc.2) dest src len
  | memset dest len flags =>
    exact durable_pmemMemset_iff henv (noflush_of_noflush hc.2) dest len
  | memmovePersist dest src len =>
    exact durable_pmemMemmove_iff henv (by decide) dest src len
  | memcpyPersist dest src len =>
    exact durable_pmemMemmove_iff henv (by decide) dest src len
  | memsetPersist dest len => exact durable_pmemMemset_iff henv (by decide) dest len
  | memmoveNodrain dest src len =>
    exact durable_pmemMemmove_drain_iff henv (by decide) dest src len
  | memcpyNodrain dest src len =>
    exact durable_pmemMemmove_drain_iff henv (by decide) dest src len
  | memsetNodrain dest len =>
    exact iff_of_true (durable_pmemMemset_drain henv (by decide) dest len) trivial

/-- A processor without `clwb` where `PMEM_NO_CLFLUSHOPT` is set. -/
def clflushEnv : Env where
  noGenericMemcpy := none
  noClflushopt := some "1"
  noClwb := none
  noMovnt := none
  avx := none
  avx512f := none
  movntThreshold := none
  noFlush := none
  noFence := none
  cpuClwb := false
  cpuAvx := false
  cpuAvx512f := false
  autoFlush := false

theorem persists_iff_clflush :
    clflushEnv.NeedsFlush ∧ (Call.memcpyPersist 4096 128 100).Allowed ∧
      (Call.memcpyPersist 4096 128 100).Persists (pmemInitFuncs clflushEnv) := by
  have henv : clflushEnv.NeedsFlush := ⟨rfl, rfl, rfl⟩
  have hc : (Call.memcpyPersist 4096 128 100).Allowed := trivial
  refine ⟨henv, hc, (persists_iff henv hc).mpr (.inr ⟨by decide, ?_⟩)⟩
  exact fun h => absurd h.2 (by decide)

/-- The same processor with `clwb` and no variable set. -/
def clwbEnv : Env :=
  { clflushEnv with noClflushopt := none, cpuClwb := true }

/-- Nothing follows the `clwb` of the copied line, so that it may still be lost. -/
theorem not_persists_memcpyPersist :
    ¬ ∀ env : Env, env.NeedsFlush → ∀ c : Call, c.Allowed → c.Persists (pmemInitFuncs env) := by
  intro h
  have henv : clwbEnv.NeedsFlush := ⟨rfl, rfl, rfl⟩
  have hcopy := h clwbEnv henv (.memcpyPersist 64 0 8) trivial
  have hflags : (0 : UInt32) &&& ~~~memNodrain &&& memNoflush = 0 := by decide
  have hiff := durable_pmemMemmove_iff henv hflags 64 0 8
  rcases hiff.mp hcopy with hlen | ⟨hflush, -⟩
  · exact absurd hlen (by decide)
  · exact absurd hflush (by decide)

end Pmdk.Pmem
