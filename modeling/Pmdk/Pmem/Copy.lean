import Pmdk.Lib.Cache

/-!
# The persistent copy routines

`pmem_memmove`, `pmem_memcpy` and `pmem_memset` with the functions that `pmem_init_funcs` chooses
for them, as the stores, flushes and fences that they execute; the values do not matter here.
Addresses are natural numbers; only the test for overlapping ranges is modulo `2 ^ 64`.

The routines for SSE2, AVX and AVX512F differ in the width of a store and in the numbers of cache
lines that they unroll, which are parameters (`Isa`), as the flush instruction is in the source.
-/

namespace Pmdk.Pmem

open Cache

/-! ## Flags -/

def memNodrain : UInt32 := 1

def memNontemporal : UInt32 := 2

def memTemporal : UInt32 := 4

def memWc : UInt32 := 8

def memWb : UInt32 := 16

def memNoflush : UInt32 := 32

/-! ## Flushing -/

inductive Flush
  | clflush
  | clflushopt
  | clwb
  | empty
  deriving DecidableEq

def Flush.flush64b : Flush → Nat → List Instr
  | .clflush, addr => [.clflush addr]
  | .clflushopt, addr => [.clflushopt addr]
  | .clwb, addr => [.clwb addr]
  | .empty, _ => []

/-- The loop of `flush_clflush_nolog` and its siblings. -/
def flushLoop (flush : Flush) (uptr stop : Nat) : List Instr :=
  if uptr < stop then flush.flush64b uptr ++ flushLoop flush (uptr + 64) stop else []
termination_by stop - uptr

/-- `flush_clflush_nolog`, `flush_clflushopt_nolog`, `flush_clwb_nolog` and
`flush_empty_nolog`. -/
def Flush.nolog (flush : Flush) (addr len : Nat) : List Instr :=
  flushLoop flush (addr - addr % 64) (addr + len)

/-- `maybe_barrier`. With `clflush` and without flushing `pmem_drain` has no fence. -/
def Flush.maybeBarrier : Flush → List Instr
  | .clflush => [.sfence]
  | .clflushopt => []
  | .clwb => []
  | .empty => [.sfence]

/-! ## Copying with vector registers -/

inductive Isa
  | sse2
  | avx
  | avx512f
  deriving DecidableEq

def Isa.width : Isa → Nat
  | .sse2 => 16
  | .avx => 32
  | .avx512f => 64

def Isa.loop : Isa → Nat
  | .sse2 => 4
  | .avx => 8
  | .avx512f => 32

def Isa.rest : Isa → List Nat
  | .sse2 => [2, 1]
  | .avx => [4, 2, 1]
  | .avx512f => [16, 8, 4, 2, 1]

def small8Noflush (dest len : Nat) : List Instr :=
  if len ≤ 2 then
    if len = 2 then [.store dest 2] else [.store dest 1]
  else if len > 4 then [.store dest 4, .store (dest + len - 4) 4]
  else [.store dest 2, .store (dest + len - 2) 2]

/-- `memmove_small_sse2_noflush` and `memset_small_sse2_noflush`. -/
def smallSse2Noflush (dest len : Nat) : List Instr :=
  if len ≤ 8 then small8Noflush dest len
  else if len ≤ 32 then
    if len > 16 then [.store dest 16, .store (dest + len - 16) 16]
    else [.store dest 8, .store (dest + len - 8) 8]
  else if len > 48 then
    [.store dest 16, .store (dest + 16) 16, .store (dest + 32) 16, .store (dest + len - 16) 16]
  else [.store dest 16, .store (dest + 16) 16, .store (dest + len - 16) 16]

/-- `memmove_small_avx_noflush` and `memset_small_avx_noflush`. -/
def smallAvxNoflush (dest len : Nat) : List Instr :=
  if len ≤ 8 then small8Noflush dest len
  else if len ≤ 32 then
    if len > 16 then [.store dest 16, .store (dest + len - 16) 16]
    else [.store dest 8, .store (dest + len - 8) 8]
  else [.store dest 32, .store (dest + len - 32) 32]

/-- `memmove_small_sse2`, `memmove_small_avx` and `memmove_small_avx512f`, which is the same
as the latter, and their counterparts for `memset`. -/
def small (isa : Isa) (flush : Flush) (dest len : Nat) : List Instr :=
  (match isa with
    | .sse2 => smallSse2Noflush dest len
    | .avx => smallAvxNoflush dest len
    | .avx512f => smallAvxNoflush dest len) ++ flush.nolog dest len

/-- `memmove_mov1x64b` to `memmove_mov32x64b` and their counterparts for `memset`: `k` cache
lines are stored, then flushed. -/
def movBlock (isa : Isa) (flush : Flush) (k dest : Nat) : List Instr :=
  (List.range (k * 64 / isa.width)).map (fun i => .store (dest + i * isa.width) isa.width) ++
    (List.range k).flatMap fun i => flush.flush64b (dest + i * 64)

/-- `memmove_movnt1x64b` to `memmove_movnt32x64b` and their counterparts for `memset`. -/
def movntBlock (isa : Isa) (k dest : Nat) : List Instr :=
  (List.range (k * 64 / isa.width)).map fun i => .ntstore (dest + i * isa.width) isa.width

/-- `memmove_movnt1x32b`, which is two stores with SSE2. -/
def movnt1x32b (isa : Isa) (dest : Nat) : List Instr :=
  match isa with
  | .sse2 => [.ntstore dest 16, .ntstore (dest + 16) 16]
  | .avx => [.ntstore dest 32]
  | .avx512f => [.ntstore dest 32]

def movTail (isa : Isa) (flush : Flush) (dest len : Nat) : List Instr :=
  if len = 0 then [] else small isa flush dest len

def movntTail (isa : Isa) (flush : Flush) (dest len : Nat) : List Instr :=
  if len = 0 then []
  else if len = 32 then movnt1x32b isa dest
  else if len = 16 then [.ntstore dest 16]
  else if len = 8 then [.ntstore dest 8]
  else if len = 4 then [.ntstore dest 4]
  else small isa flush dest len

section Loops

variable (block : Nat → Nat → List Instr) (tail : Nat → Nat → List Instr)

/-- The steps after the main loop, each of which copies `k` cache lines if so many are left.
`dest` goes up. -/
def restFw : List Nat → Nat → Nat → List Instr
  | [], dest, len => tail dest len
  | k :: ks, dest, len =>
    if k * 64 ≤ len then block k dest ++ restFw ks (dest + k * 64) (len - k * 64)
    else restFw ks dest len

def loopFw (k : Nat) (ks : List Nat) (dest len : Nat) : List Instr :=
  if 0 < k ∧ k * 64 ≤ len then block k dest ++ loopFw k ks (dest + k * 64) (len - k * 64)
  else restFw block tail ks dest len
termination_by len

/-- The same with `dest` behind the range and going down. -/
def restBw : List Nat → Nat → Nat → List Instr
  | [], dest, len => tail (dest - len) len
  | k :: ks, dest, len =>
    if k * 64 ≤ len then block k (dest - k * 64) ++ restBw ks (dest - k * 64) (len - k * 64)
    else restBw ks dest len

def loopBw (k : Nat) (ks : List Nat) (dest len : Nat) : List Instr :=
  if 0 < k ∧ k * 64 ≤ len then
    block k (dest - k * 64) ++ loopBw k ks (dest - k * 64) (len - k * 64)
  else restBw block tail ks dest len
termination_by len

end Loops

def copyFw (isa : Isa) (flush : Flush) (block tail : Nat → Nat → List Instr)
    (dest len : Nat) : List Instr :=
  if dest % 64 > 0 then
    let cnt := min (64 - dest % 64) len
    small isa flush dest cnt ++
      loopFw block tail isa.loop isa.rest (dest + cnt) (len - cnt)
  else loopFw block tail isa.loop isa.rest dest len

def copyBw (isa : Isa) (flush : Flush) (block tail : Nat → Nat → List Instr)
    (dest len : Nat) : List Instr :=
  let dest := dest + len
  if dest % 64 > 0 then
    let cnt := min (dest % 64) len
    small isa flush (dest - cnt) cnt ++
      loopBw block tail isa.loop isa.rest (dest - cnt) (len - cnt)
  else loopBw block tail isa.loop isa.rest dest len

/-- `(uintptr_t)dest - (uintptr_t)src >= len`. -/
def goesUp (dest src len : Nat) : Bool := (dest + 2 ^ 64 - src) % 2 ^ 64 ≥ len

/-- `memmove_mov_sse2_clflush` and its siblings. -/
def memmoveMov (isa : Isa) (flush : Flush) (dest src len : Nat) : List Instr :=
  if goesUp dest src len then
    copyFw isa flush (movBlock isa flush) (movTail isa flush) dest len
  else copyBw isa flush (movBlock isa flush) (movTail isa flush) dest len

/-- `memmove_movnt_sse2_clflush` and its siblings. -/
def memmoveMovnt (isa : Isa) (flush : Flush) (dest src len : Nat) : List Instr :=
  (if goesUp dest src len then
    copyFw isa flush (movntBlock isa) (movntTail isa flush) dest len
  else copyBw isa flush (movntBlock isa) (movntTail isa flush) dest len) ++ flush.maybeBarrier

/-- `memset_mov_sse2_clflush` and its siblings. -/
def memsetMov (isa : Isa) (flush : Flush) (dest len : Nat) : List Instr :=
  copyFw isa flush (movBlock isa flush) (movTail isa flush) dest len

/-- `memset_movnt_sse2_clflush` and its siblings. -/
def memsetMovnt (isa : Isa) (flush : Flush) (dest len : Nat) : List Instr :=
  copyFw isa flush (movntBlock isa) (movntTail isa flush) dest len ++ flush.maybeBarrier

/-! ## The functions that can be chosen -/

inductive Impl
  | libc
  | generic
  | isa (isa : Isa)
  deriving DecidableEq

/-- `struct pmem_funcs`; `impl` and `deepFlush` determine `memmove_nodrain` and
`memset_nodrain`. -/
structure Funcs where
  predrainFence : Bool
  flush : Flush
  deepFlush : Flush
  impl : Impl
  movntThreshold : Nat
  deriving DecidableEq

def Funcs.flushFlags (funcs : Funcs) (addr len : Nat) (flags : UInt32) : List Instr :=
  if flags &&& memNoflush = 0 then funcs.flush.nolog addr len else []

def template (threshold len : Nat) (flags : UInt32) (mov movnt : Flush → List Instr)
    (flush : Flush) : List Instr :=
  if flags &&& memNoflush ≠ 0 then mov .empty
  else if flags &&& (memWc ||| memNontemporal) ≠ 0 then movnt flush
  else if flags &&& (memWb ||| memTemporal) ≠ 0 then mov flush
  else if len < threshold then mov flush
  else movnt flush

def memmoveNodrainIsa (funcs : Funcs) (isa : Isa) (dest src len : Nat) (flags : UInt32) :
    List Instr :=
  if len = 0 ∨ src = dest then []
  else template funcs.movntThreshold len flags (fun flush => memmoveMov isa flush dest src len)
    (fun flush => memmoveMovnt isa flush dest src len) funcs.deepFlush

def memsetNodrainIsa (funcs : Funcs) (isa : Isa) (dest len : Nat) (flags : UInt32) :
    List Instr :=
  if len = 0 then []
  else template funcs.movntThreshold len flags (fun flush => memsetMov isa flush dest len)
    (fun flush => memsetMovnt isa flush dest len) funcs.deepFlush

/-- Byte stores from `dest` on. -/
def storeBytes (dest n : Nat) : List Instr :=
  (List.range n).map fun i => .store (dest + i) 1

/-- `cpy64`, or eight calls of `store8`. -/
def cpy64 (dest : Nat) : List Instr :=
  (List.range 8).map fun i => .store (dest + i * 8) 8

/-- The loop of `memmove_nodrain_generic` and `memset_nodrain_generic` over whole lines and
what follows it; the remaining bytes are flushed together. -/
def genericFw (funcs : Funcs) (flags : UInt32) (dest len : Nat) : List Instr :=
  if 64 ≤ len then
    cpy64 dest ++ funcs.flushFlags dest 64 flags ++
      genericFw funcs flags (dest + 64) (len - 64)
  else
    (List.range (len / 8)).map (fun i => .store (dest + i * 8) 8) ++
      storeBytes (dest + len / 8 * 8) (len % 8) ++
      (if len = 0 then [] else funcs.flushFlags dest len flags)
termination_by len

/-- The same with `dest` behind the range and going down. -/
def genericBw (funcs : Funcs) (flags : UInt32) (dest len : Nat) : List Instr :=
  if 64 ≤ len then
    cpy64 (dest - 64) ++ funcs.flushFlags (dest - 64) 64 flags ++
      genericBw funcs flags (dest - 64) (len - 64)
  else
    (List.range (len / 8)).map (fun i => .store (dest - (i + 1) * 8) 8) ++
      (List.range (len % 8)).map (fun i => .store (dest - len / 8 * 8 - (i + 1)) 1) ++
      (if len = 0 then [] else funcs.flushFlags (dest - len) len flags)
termination_by len

/-- `memset_nodrain_generic`, and `memmove_nodrain_generic` when it goes up. -/
def copyGenericFw (funcs : Funcs) (dest len : Nat) (flags : UInt32) : List Instr :=
  if dest % 8 > 0 then
    let cnt := min (8 - dest % 8) len
    storeBytes dest cnt ++ funcs.flushFlags dest cnt flags ++
      genericFw funcs flags (dest + cnt) (len - cnt)
  else genericFw funcs flags dest len

/-- `memmove_nodrain_generic` when it goes down. -/
def copyGenericBw (funcs : Funcs) (dest len : Nat) (flags : UInt32) : List Instr :=
  let dest := dest + len
  if dest % 8 > 0 then
    let cnt := min (dest % 8) len
    (List.range cnt).map (fun i => .store (dest - (i + 1)) 1) ++
      funcs.flushFlags (dest - cnt) cnt flags ++
      genericBw funcs flags (dest - cnt) (len - cnt)
  else genericBw funcs flags dest len

def memmoveNodrainGeneric (funcs : Funcs) (dest src len : Nat) (flags : UInt32) :
    List Instr :=
  if goesUp dest src len then copyGenericFw funcs dest len flags
  else copyGenericBw funcs dest len flags

def memsetNodrainGeneric (funcs : Funcs) (dest len : Nat) (flags : UInt32) : List Instr :=
  copyGenericFw funcs dest len flags

def nodrainLibc (funcs : Funcs) (dest len : Nat) (flags : UInt32) : List Instr :=
  storeBytes dest len ++ funcs.flushFlags dest len flags

def Funcs.memmoveNodrain (funcs : Funcs) (dest src len : Nat) (flags : UInt32) : List Instr :=
  match funcs.impl with
  | .libc => nodrainLibc funcs dest len flags
  | .generic => memmoveNodrainGeneric funcs dest src len flags
  | .isa isa => memmoveNodrainIsa funcs isa dest src len flags

def Funcs.memsetNodrain (funcs : Funcs) (dest len : Nat) (flags : UInt32) : List Instr :=
  match funcs.impl with
  | .libc => nodrainLibc funcs dest len flags
  | .generic => memsetNodrainGeneric funcs dest len flags
  | .isa isa => memsetNodrainIsa funcs isa dest len flags

/-! ## Initialization and the entry points of libpmem

`pmem_init_funcs` chooses the functions from the environment and the processor. The entry
points call them through `Funcs`.
-/

/-- The environment variables that are read, with the numbers that `atoll` returns for two of
them, and what the processor and the platform can do. -/
structure Env where
  noGenericMemcpy : Option Int
  noClflushopt : Option String
  noClwb : Option String
  noMovnt : Option String
  avx : Option String
  avx512f : Option String
  movntThreshold : Option Int
  noFlush : Option String
  noFence : Option String
  cpuClwb : Bool
  cpuAvx : Bool
  cpuAvx512f : Bool
  autoFlush : Bool

/-- `deep_flush` after `pmem_cpuinfo_to_funcs`. The source takes `clflushopt` for granted. -/
def Env.deepFlush (env : Env) : Flush :=
  if env.cpuClwb ∧ env.noClwb ≠ some "1" then .clwb
  else if env.noClflushopt ≠ some "1" then .clflushopt
  else .clflush

/-- `predrain_fence` after `pmem_cpuinfo_to_funcs`, true for `predrain_memory_barrier`. -/
def Env.predrainBarrier (env : Env) : Bool :=
  env.noClflushopt ≠ some "1" || (env.cpuClwb && env.noClwb ≠ some "1")

/-- `impl` after `pmem_cpuinfo_to_funcs`. -/
def Env.impl (env : Env) : Impl :=
  if env.noMovnt = some "1" then
    if env.noGenericMemcpy.getD 0 ≠ 0 then .libc else .generic
  else if env.cpuAvx512f ∧ env.avx512f = some "1" then .isa .avx512f
  else if env.cpuAvx ∧ env.avx = some "1" then .isa .avx
  else .isa .sse2

/-- `Movnt_threshold`; a negative value is ignored. -/
def Env.threshold (env : Env) : Nat :=
  match env.movntThreshold with
  | none => 256
  | some val => if val < 0 then 256 else val.toNat

def Env.flushes (env : Env) : Bool :=
  if env.noFlush = some "1" then false
  else if env.noFlush = some "0" then true
  else !env.autoFlush

def pmemInitFuncs (env : Env) : Funcs where
  predrainFence :=
    if env.noFence = some "1" then false
    else if env.flushes then env.predrainBarrier
    else true
  flush := if env.flushes then env.deepFlush else .empty
  deepFlush := env.deepFlush
  impl := env.impl
  movntThreshold := env.threshold

/-! ## Entry points -/

def pmemDrain (funcs : Funcs) : List Instr :=
  if funcs.predrainFence then [.sfence] else []

/-- `pmem_memmove`. The branch for calls that are neither `NODRAIN` nor `NOFLUSH` is empty:
its `_mm_sfence` is commented out. -/
def pmemMemmove (funcs : Funcs) (dest src len : Nat) (flags : UInt32) : List Instr :=
  funcs.memmoveNodrain dest src len (flags &&& ~~~memNodrain)

def pmemMemcpy (funcs : Funcs) (dest src len : Nat) (flags : UInt32) : List Instr :=
  pmemMemmove funcs dest src len flags

/-- `pmem_memset`, which has the same empty branch. -/
def pmemMemset (funcs : Funcs) (dest len : Nat) (flags : UInt32) : List Instr :=
  funcs.memsetNodrain dest len (flags &&& ~~~memNodrain)

/-- The calls that copy or set a range; the `nodrain` ones are followed by `pmem_drain`. -/
inductive Call
  | memmove (dest src len : Nat) (flags : UInt32)
  | memcpy (dest src len : Nat) (flags : UInt32)
  | memset (dest len : Nat) (flags : UInt32)
  | memmovePersist (dest src len : Nat)
  | memcpyPersist (dest src len : Nat)
  | memsetPersist (dest len : Nat)
  | memmoveNodrain (dest src len : Nat)
  | memcpyNodrain (dest src len : Nat)
  | memsetNodrain (dest len : Nat)
  deriving DecidableEq

def Call.instrs (funcs : Funcs) : Call → List Instr
  | .memmove dest src len flags => pmemMemmove funcs dest src len flags
  | .memcpy dest src len flags => pmemMemcpy funcs dest src len flags
  | .memset dest len flags => pmemMemset funcs dest len flags
  | .memmovePersist dest src len => pmemMemmove funcs dest src len 0
  | .memcpyPersist dest src len => pmemMemcpy funcs dest src len 0
  | .memsetPersist dest len => pmemMemset funcs dest len 0
  | .memmoveNodrain dest src len =>
    pmemMemmove funcs dest src len memNodrain ++ pmemDrain funcs
  | .memcpyNodrain dest src len => pmemMemcpy funcs dest src len memNodrain ++ pmemDrain funcs
  | .memsetNodrain dest len => pmemMemset funcs dest len memNodrain ++ pmemDrain funcs

end Pmdk.Pmem
