import Pmdk.Pool.ReplicaTiles

/-!
# Deep flushes of a replica

The pieces of a deep flush are disjoint, each of them lies inside of its part, and together they are
what was to be flushed. This needs the parts to be in a row, as `util_replica_map_local` and
`util_replica_open_local` put them.
-/

namespace Pmdk.Poolset

open List

variable {align : Nat} {rep : Replica} {set : PoolSet}

/-! ## Pieces -/

def Piece.span (piece : Piece) : Span := ⟨piece.rangeStart, piece.rangeStart + piece.rangeLen⟩

theorem Part.intersection_span {start stop : Nat} (h : start ≤ stop) (p : Nat) (part : Part) :
    (part.intersection start stop p).map Piece.span = part.span.clip start stop := by
  rw [Part.intersection, Part.span, Span.clip_mk]
  by_cases hapart : stop < part.addr ∨ part.addr + part.size < start
  · rw [if_pos hapart, if_pos hapart, Option.map_none]
  · have hle : (if start < part.addr then part.addr else start) ≤
        if part.addr + part.size < stop then part.addr + part.size else stop := by
      split <;> split <;> omega
    rw [if_neg hapart, if_neg hapart, Option.map_some, Piece.span]
    dsimp only
    rw [Nat.add_sub_cancel' hle]

theorem Part.intersection_part {start stop p : Nat} {part : Part} {piece : Piece}
    (h : part.intersection start stop p = some piece) : piece.part = p := by
  rw [Part.intersection] at h
  dsimp only at h
  split at h
  · cases h
  · obtain rfl := Option.some.inj h
    rfl

theorem deepLoop_span {os : Piece → Bool} {start stop : Nat} (h : start ≤ stop) (p : Nat)
    (parts : List Part) :
    ∃ missed, (deepLoop os start stop p parts).1.map Piece.span ++ missed =
        (parts.map Part.span).filterMap (Span.clip start stop) ∧
      ((deepLoop os start stop p parts).2 = true → missed = []) := by
  induction parts generalizing p with
  | nil => exact ⟨[], rfl, fun _ => rfl⟩
  | cons part parts ih =>
    obtain ⟨missed, hspan, hall⟩ := ih (p + 1)
    have hclip := part.intersection_span h p
    rw [deepLoop]
    cases hpiece : part.intersection start stop p with
    | none =>
      rw [hpiece] at hclip
      rw [map_cons, filterMap_cons_none hclip.symm]
      exact ⟨missed, hspan, hall⟩
    | some piece =>
      rw [hpiece] at hclip
      rw [map_cons, filterMap_cons_some hclip.symm]
      dsimp only
      split
      · exact ⟨missed, congrArg (piece.span :: ·) hspan, hall⟩
      · exact ⟨_, rfl, fun hfalse => (Bool.false_ne_true hfalse).elim⟩

theorem deepLoop_inside {os : Piece → Bool} {start stop : Nat} (h : start ≤ stop) (p : Nat)
    (parts : List Part) {piece : Piece} (hmem : piece ∈ (deepLoop os start stop p parts).1)
    (hlen : 0 < piece.rangeLen) :
    ∃ i part, piece.part = p + i ∧ parts[i]? = some part ∧ part.addr ≤ piece.rangeStart ∧
      piece.rangeStart + piece.rangeLen ≤ part.addr + part.size := by
  induction parts generalizing p with
  | nil => cases hmem
  | cons part parts ih =>
    have hlater : piece ∈ (deepLoop os start stop (p + 1) parts).1 →
        ∃ i q, piece.part = p + i ∧ (part :: parts)[i]? = some q ∧ q.addr ≤ piece.rangeStart ∧
          piece.rangeStart + piece.rangeLen ≤ q.addr + q.size := by
      intro hmem
      obtain ⟨i, q, hpart, hq, hinside⟩ := ih (p + 1) hmem
      exact ⟨i + 1, q, by omega, hq, hinside⟩
    rw [deepLoop] at hmem
    cases hpiece : part.intersection start stop p with
    | none =>
      rw [hpiece] at hmem
      exact hlater hmem
    | some first =>
      rw [hpiece] at hmem
      dsimp only at hmem
      have hfirst : piece = first → ∃ i q, piece.part = p + i ∧ (part :: parts)[i]? = some q ∧
          q.addr ≤ piece.rangeStart ∧ piece.rangeStart + piece.rangeLen ≤ q.addr + q.size := by
        rintro rfl
        have hclip := part.intersection_span h p
        rw [hpiece, Option.map_some] at hclip
        have hin := Span.lt_of_mem_clip hclip.symm (Nat.lt_add_of_pos_right hlen)
        exact ⟨0, part, Part.intersection_part hpiece, rfl, hin⟩
      split at hmem
      · rcases mem_cons.mp hmem with heq | hmem
        · exact hfirst heq
        · exact hlater hmem
      · exact hfirst (mem_singleton.mp hmem)

/-- A deep flush of `len` bytes from `addr` on is made of disjoint pieces, each of them inside of
its part, and of all of the request if no call fails. -/
structure Flushes (rep : Replica) (addr len : Nat) (calls : List Piece × Bool) : Prop where
  disjoint : (calls.1.flatMap fun piece => piece.span.points).Nodup
  inside : ∀ piece ∈ calls.1, 0 < piece.rangeLen → ∃ part, rep.part[piece.part]? = some part ∧
    part.addr ≤ piece.rangeStart ∧ piece.rangeStart + piece.rangeLen ≤ part.addr + part.size
  all : calls.2 = true →
    (calls.1.flatMap fun piece => piece.span.points) = List.range' addr len

def Replica.Within (rep : Replica) (addr len : Nat) : Prop :=
  ∀ first ∈ rep.part.head?, first.addr ≤ addr ∧ addr + len ≤ first.addr + rep.repsize

theorem Replica.Tiled.flushes (h : rep.Tiled) {addr len : Nat} (hwithin : rep.Within addr len)
    (os : Piece → Bool) :
    ∃ calls, utilReplicaDeepCommon os rep addr len = some calls ∧ Flushes rep addr len calls := by
  obtain ⟨first, rest, hparts, htiles⟩ := h
  obtain ⟨hlo, hhi⟩ := hwithin first (by rw [hparts]; rfl)
  have hle := Nat.le_add_right addr len
  obtain ⟨missed, hspan, hall⟩ := deepLoop_span hle 0 rep.part
  have hpoints := htiles.points_clip hlo hle hhi
  rw [Nat.add_sub_cancel_left, ← hspan, flatMap_append, flatMap_map] at hpoints
  have hassert : ¬(addr < first.addr ∨ first.addr + rep.repsize < addr + len) := by omega
  refine ⟨deepLoop os addr (addr + len) 0 rep.part, ?_, ?_, ?_, ?_⟩
  · simp only [utilReplicaDeepCommon, hparts, if_neg hassert]
  · have hnodup : (List.range' addr len).Nodup := List.nodup_range'
    rw [← hpoints] at hnodup
    exact (nodup_append.mp hnodup).1
  · intro piece hmem hlen
    obtain ⟨i, part, hpart, hget, hinside⟩ := deepLoop_inside hle 0 rep.part hmem hlen
    rw [Nat.zero_add] at hpart
    exact ⟨part, hpart ▸ hget, hinside⟩
  · intro hok
    rw [hall hok, flatMap_nil, append_nil] at hpoints
    exact hpoints

/-! ## Both ways to map a replica -/

def MappedAs (checkHdr : Bool) (rep : Replica) (repidx : Nat) (result : Except Failure PoolSet) :
    Prop :=
  ∃ placed, Placed rep placed ∧
    if utilReplicaCheckMapSync checkHdr placed then
      ∃ set', result = .ok set' ∧ set'.replica[repidx]? = some placed
    else result = .error .mapSync

theorem getElem?_setSize {repidx : Nat} (hrep : set.replica[repidx]? = some rep) :
    (utilPoolsetSetSize align set).replica[repidx]? = some (set.sizedReplica align rep) := by
  rw [utilPoolsetSetSize, getElem?_map, hrep, Option.map_some]

/-- Unless the parts are not all mapped with or all without `MAP_SYNC`, a replica is mapped as a row
of its parts that has the size computed for it, and what is flushed deeply is what was asked for. -/
theorem replica_mapped_flushed {repidx : Nat} (hpos : 0 < align)
    (hrep : set.replica[repidx]? = some rep) (hfile : rep.FileBased align) :
    (∀ hint mmap, align ∣ hint → Answers align mmap →
      MappedAs false (set.sizedReplica align rep) repidx
        (utilReplicaMapLocal align (some hint) mmap (utilPoolsetSetSize align set) repidx)) ∧
    (∀ os : OpenAnswers, os.Succeed align → MappedAs true (set.sizedReplica align rep) repidx
      (utilReplicaOpenLocal align os (utilPoolsetSetSize align set) repidx)) ∧
    ∀ placed, Placed (set.sizedReplica align rep) placed → ∀ addr len, placed.Within addr len →
      ∀ os, ∃ calls, utilReplicaDeepCommon os placed addr len = some calls ∧
        Flushes placed addr len calls := by
  have hget : (utilPoolsetSetSize align set).replica[repidx]? = some _ := getElem?_setSize hrep
  have hlt := (List.getElem?_eq_some_iff.mp hget).1
  refine ⟨fun hint mmap hhint hmmap => ?_, fun os hos => ?_, fun placed hplaced addr len hin os =>
    hplaced.tiled.flushes hin os⟩
  · obtain ⟨placed, hplaced, hmap⟩ := hfile.mapReplica_placed hpos hmmap hhint
    refine ⟨placed, hplaced, ?_⟩
    have hlocal : ¬(set.sizedReplica align rep).remote = true := by
      rw [PoolSet.sizedReplica, hfile.remote]
      exact Bool.false_ne_true
    have hmap' : mapReplica align ((utilPoolsetSetSize align set).hdrsize align) (some hint) mmap
        (set.sizedReplica align rep) = _ := hmap
    rw [utilReplicaMapLocal, hget]
    dsimp only
    rw [if_neg hlocal, hmap']
    cases utilReplicaCheckMapSync false placed with
    | true => exact ⟨_, rfl, List.getElem?_set_self hlt⟩
    | false => rfl
  · obtain ⟨placed, hplaced, hopen⟩ := hfile.openReplica_placed hpos hos 10
    refine ⟨placed, hplaced, ?_⟩
    have hopen' : openReplica align ((utilPoolsetSetSize align set).hdrsize align) os
        (set.sizedReplica align rep) 10 0 = _ := hopen
    rw [utilReplicaOpenLocal, hget]
    dsimp only
    rw [hopen']
    cases utilReplicaCheckMapSync true placed with
    | true => exact ⟨_, rfl, List.getElem?_set_self hlt⟩
    | false => rfl

/-! ## Two parts -/

def twoPages (path : List Char) : Part := ⟨path, 8192, 4096, -1, false, 0, 0, false, 0, 0, false⟩

def twoPagesTwice : PoolSet :=
  { replica := [⟨[twoPages ['a'], twoPages ['b']], [], 0, 0, 0, false⟩]
    poolsize := 0
    resvsize := 0
    singlehdr := false
    nohdrs := false
    directoryBased := false
    nextId := 0
    nextDirectoryId := 0
    zeroed := true }

theorem twoPagesTwice_fileBased {rep : Replica} (h : twoPagesTwice.replica[0]? = some rep) :
    rep.FileBased 4096 := by
  obtain rfl := Option.some.inj h
  refine ⟨rfl, rfl, rfl, cons_ne_nil _ _, fun p hp => ?_, by decide⟩
  rcases mem_cons.mp hp with rfl | hp
  · exact ⟨rfl, Nat.le_refl 8192⟩
  · obtain rfl := mem_singleton.mp hp
    exact ⟨rfl, Nat.le_refl 8192⟩

/-- The pages are mapped with `MAP_SYNC`, and a flush of two bytes goes over both parts. -/
theorem replica_mapped_flushed_twoPages :
    ∃ set' placed, utilReplicaMapLocal 4096 (some 65536) (fun _ addr _ _ => ⟨some addr, true,
        false⟩) (utilPoolsetSetSize 4096 twoPagesTwice) 0 = .ok set' ∧
      set'.replica[0]? = some placed ∧
      ∃ calls, utilReplicaDeepCommon (fun _ => true) placed 73727 2 = some calls ∧
        Flushes placed 73727 2 calls := by
  have hwithin : ((utilReplicaMapLocal 4096 (some 65536) (fun _ addr _ _ => ⟨some addr, true,
      false⟩)
      (utilPoolsetSetSize 4096 twoPagesTwice) 0).toOption.bind (·.replica[0]?)).any (fun placed =>
        placed.part.head?.all fun first =>
          first.addr ≤ 73727 && 73729 ≤ first.addr + placed.repsize) =
      true := by decide
  obtain ⟨hlocal, -, hflush⟩ := @replica_mapped_flushed 4096 _ twoPagesTwice 0
    (Nat.succ_pos 4095) rfl (twoPagesTwice_fileBased rfl)
  obtain ⟨placed, hplaced, hresult⟩ := hlocal 65536 (fun _ addr _ _ => ⟨some addr, true, false⟩)
    (by decide) ⟨fun addr _ _ hdvd => ⟨addr, rfl, hdvd⟩, fun _ _ _ _ => rfl⟩
  split at hresult
  · obtain ⟨set', hok, hget⟩ := hresult
    rw [hok, Except.toOption, Option.bind_some, hget, Option.any_some,
        Option.all_eq_true] at hwithin
    refine ⟨set', placed, hok, hget, hflush placed hplaced 73727 2 (fun first hfirst => ?_)
      fun _ => true⟩
    have hin := hwithin first hfirst
    rw [Bool.and_eq_true] at hin
    exact ⟨of_decide_eq_true hin.1, of_decide_eq_true hin.2⟩
  · rw [hresult] at hwithin
    exact (Bool.false_ne_true hwithin).elim

/-- With only the first part mapped with `MAP_SYNC`, the replica is not mapped. -/
theorem not_mapped_mixed :
    ¬∀ (align : Nat) (set : PoolSet) (repidx : Nat) (rep : Replica) (hint : Nat)
      (mmap : Nat → Nat → Nat → Nat → MmapResult), 0 < align →
      set.replica[repidx]? = some rep → rep.FileBased align → align ∣ hint →
      (∀ p addr size offset, (mmap p addr size offset).addr = some addr) →
      ∃ set' placed, utilReplicaMapLocal align (some hint) mmap (utilPoolsetSetSize align set)
          repidx = .ok set' ∧
        set'.replica[repidx]? = some placed ∧ placed.Tiled := by
  intro hall
  obtain ⟨set', -, hok, -⟩ := hall 4096 twoPagesTwice 0 _ 65536
    (fun p addr _ _ => ⟨some addr, p == 0, false⟩) (Nat.succ_pos 4095) rfl
    (twoPagesTwice_fileBased rfl) (by decide) fun _ _ _ _ => rfl
  have hfail : utilReplicaMapLocal 4096 (some 65536) (fun p addr _ _ => ⟨some addr, p == 0, false⟩)
      (utilPoolsetSetSize 4096 twoPagesTwice) 0 = .error .mapSync := by decide
  rw [hfail] at hok
  cases hok

end Pmdk.Poolset
