import Pmdk.Pool.PoolExtend

/-!
# What a failed extension leaves behind

If a path cannot be allocated, `util_poolset_append_new_part` takes the parts back that it has
added, and nothing has changed. A failure after that is not undone: the identifiers of the next part
stay advanced, and the clean-up loop goes to the same replica again and again.
-/

namespace Pmdk.Poolset

open List

variable {align size minpartsize r : Nat} {os : ExtendAnswers} {set : PoolSet}
  {replica : List Replica} {effects : List Effect} {malloc : Nat → Bool}

/-! ## Effects -/

def allocated (effects : List Effect) : List (List Char) :=
  effects.filterMap fun | .malloc path => some path | _ => none

def freed (effects : List Effect) : List (List Char) :=
  effects.filterMap fun | .free path => some path | _ => none

def created (effects : List Effect) : List (List Char) :=
  effects.filterMap fun | .create path => some path | _ => none

def unlinked (effects : List Effect) : List (List Char) :=
  effects.filterMap fun | .unlink path => some path | _ => none

/-- The call has failed and the pool set is as it was: the replicas have the same parts, every path
that was allocated is freed once, and the files that were created are removed. -/
structure Restored (set : PoolSet) (e : Extended) : Prop where
  addr : e.addr = none
  part : e.set.replica.map (·.part) = set.replica.map (·.part)
  poolsize : e.set.poolsize = set.poolsize
  nextId : e.set.nextId = set.nextId
  nextDirectoryId : e.set.nextDirectoryId = set.nextDirectoryId
  freed : (freed e.effects).Perm (allocated e.effects)
  unlinked : (unlinked e.effects).Perm (created e.effects)

def PoolSet.Rejects (set : PoolSet) (size minpartsize : Nat) : Prop :=
  size = 0 ∨ set.exceeds size = true ∧ set.adjusted size < minpartsize

theorem restored_self : Restored set ⟨none, size, set, []⟩ :=
  ⟨rfl, rfl, rfl, rfl, rfl, List.Perm.refl [], List.Perm.refl []⟩

/-! ## Appending -/

theorem addParts_all (hdirs : ∀ rep ∈ replica, rep.directory ≠ [])
    (hall : ∀ i, i < replica.length → malloc (r + i) = true) :
    ∃ replica' effects, addParts align malloc set size r replica =
      some (none, replica', effects) := by
  induction replica generalizing r with
  | nil => exact ⟨[], [], rfl⟩
  | cons rep rest ih =>
    have hlen := length_pos_iff.mpr (hdirs rep mem_cons_self)
    have hfirst : malloc r = true := hall 0 (Nat.succ_pos _)
    have hrest : ∀ i, i < rest.length → malloc (r + 1 + i) = true := by
      intro i hi
      rw [Nat.add_right_comm]
      exact hall (i + 1) (Nat.succ_lt_succ hi)
    obtain ⟨rest', effects, hrest⟩ :=
      ih (fun rep' hrep' => hdirs rep' (mem_cons_of_mem rep hrep')) hrest
    rw [addParts, getElem?_eq_getElem (Nat.mod_lt _ hlen)]
    dsimp only
    rw [if_pos hfirst, hrest]
    exact ⟨_, _, rfl⟩

theorem addParts_failed (hdirs : ∀ rep ∈ replica, rep.directory ≠ []) {i : Nat}
    (hi : i < replica.length) (hfail : malloc (r + i) = false) :
    ∃ (n : Nat) (replica' : List Replica) (paths : List (List Char)),
        addParts align malloc set size r replica =
        some (some (r + n), replica', paths.map .malloc) ∧
      removeParts n replica' = some (replica, paths.map .free) := by
  induction replica generalizing r i with
  | nil => cases hi
  | cons rep rest ih =>
    have hlen := length_pos_iff.mpr (hdirs rep mem_cons_self)
    have hlt := Nat.mod_lt set.nextDirectoryId hlen
    rw [addParts, getElem?_eq_getElem hlt]
    dsimp only
    generalize rep.directory[set.nextDirectoryId % rep.directory.length].newPath set.nextId = path
    cases hmalloc : malloc r with
    | false => exact ⟨0, rep :: rest, [], rfl, rfl⟩
    | true =>
      cases i with
      | zero =>
        rw [Nat.add_zero, hmalloc] at hfail
        cases hfail
      | succ i =>
        rw [← Nat.add_assoc, Nat.add_right_comm] at hfail
        obtain ⟨n, rest', paths, hrest, hremove⟩ :=
          ih (fun rep' hrep' => hdirs rep' (mem_cons_of_mem rep hrep'))
            (Nat.lt_of_succ_lt_succ hi) hfail
        rw [if_pos rfl, hrest]
        refine ⟨n + 1, { rep with part := rep.part ++ [newPart align path size] } :: rest',
          path :: paths, ?_, ?_⟩
        · rw [Nat.add_right_comm]
          rfl
        · rw [removeParts, getLast?_concat, hremove, dropLast_concat]
          rfl

section

variable (paths : List (List Char))

include paths

theorem freed_append_map :
    freed (paths.map .malloc ++ paths.map .free) = paths := by
  simp [freed, filterMap_map]

theorem allocated_append_map :
    allocated (paths.map .malloc ++ paths.map .free) = paths := by
  simp [allocated, filterMap_map]

theorem created_append_map :
    created (paths.map .malloc ++ paths.map .free) = [] := by
  simp [created, filterMap_map]

theorem unlinked_append_map :
    unlinked (paths.map .malloc ++ paths.map .free) = [] := by
  simp [unlinked, filterMap_map]

end

section Append

variable (hdir : set.directoryBased = true) (hdirs : ∀ rep ∈ set.replica, rep.directory ≠ [])
include hdir hdirs

theorem utilPoolsetAppendNewPart_all (hall : ∀ i, i < set.replica.length → malloc i = true) :
    ∃ set' effects, utilPoolsetAppendNewPart align malloc set size = some (true, set', effects) ∧
      set'.nextId = (set.nextId + 1) % 2 ^ 32 := by
  have hall' : ∀ i, i < set.replica.length → malloc (0 + i) = true := by
    intro i hi
    rw [Nat.zero_add]
    exact hall i hi
  obtain ⟨replica', effects, hadd⟩ := addParts_all hdirs hall'
  rw [utilPoolsetAppendNewPart, if_neg (by simp [hdir]), hadd]
  exact ⟨_, _, rfl, rfl⟩

theorem utilPoolsetAppendNewPart_failed {i : Nat} (hi : i < set.replica.length)
    (hfail : malloc i = false) :
    ∃ paths : List (List Char), utilPoolsetAppendNewPart align malloc set size =
      some (false, set, paths.map .malloc ++ paths.map .free) := by
  obtain ⟨n, replica', paths, hadd, hremove⟩ := addParts_failed
    (r := 0) hdirs hi ((Nat.zero_add i).symm ▸ hfail)
  rw [Nat.zero_add] at hadd
  rw [utilPoolsetAppendNewPart, if_neg (by simp [hdir]), hadd]
  dsimp only
  rw [hremove]
  exact ⟨paths, rfl⟩

end Append

/-! ## The clean-up -/

theorem extendError_nextId {e : Extended} (h : extendError align r size set effects = some e) :
    e.set.nextId = set.nextId := by
  rw [extendError] at h
  cases hclean : cleanParts r (r + 1) set.replica with
  | none =>
    rw [hclean] at h
    cases h
  | some cleaned =>
    rw [hclean] at h
    obtain rfl := Option.some.inj h
    rfl

theorem openNewParts_nextId {oldPoolsize : Nat} {e : Extended}
    (h : openNewParts align os oldPoolsize size set effects = some e) :
    e.set.nextId = set.nextId := by
  rw [openNewParts] at h
  cases hopen : openParts align 0 os oldPoolsize 0 set.replica with
  | none =>
    rw [hopen] at h
    cases h
  | some opened =>
    obtain ⟨failed, replica, effects'⟩ := opened
    rw [hopen] at h
    cases failed with
    | some r =>
      have hsame := extendError_nextId h
      exact hsame
    | none =>
      dsimp only at h
      split at h
      · have hsame := extendError_nextId h
        exact hsame
      · obtain rfl := Option.some.inj h
        rfl

theorem succ_mod_ne (n m : Nat) (hm : 1 < m) : (n + 1) % m ≠ n := by
  intro heq
  have hlt : n < m := heq ▸ Nat.mod_lt (n + 1) (Nat.zero_lt_of_lt hm)
  rcases Nat.lt_or_ge (n + 1) m with hsucc | hsucc
  · rw [Nat.mod_eq_of_lt hsucc] at heq
    omega
  · have hsucc : n + 1 = m := Nat.le_antisymm hlt hsucc
    rw [hsucc, Nat.mod_self] at heq
    omega

/-- A failed extension leaves the pool set as it was if and only if the size is not accepted or a
path is not allocated. -/
theorem utilPoolExtend_restored_iff (hdir : set.directoryBased = true)
    (hsingle : set.singlehdr = true) (hdirs : ∀ rep ∈ set.replica, rep.directory ≠ []) :
    (∃ e, utilPoolExtend align os set size minpartsize = some e ∧ Restored set e) ↔
      set.Rejects size minpartsize ∨ ∃ r, r < set.replica.length ∧ os.malloc r = false := by
  have hstart : (size = 0 ∨ set.singlehdr = false) ↔ size = 0 := by
    rw [hsingle]
    simp
  by_cases hreject : set.Rejects size minpartsize
  · refine iff_of_true ?_ (Or.inl hreject)
    rw [utilPoolExtend]
    simp only [hstart]
    by_cases hzero : size = 0
    · rw [if_pos hzero]
      exact ⟨_, rfl, restored_self⟩
    · rw [if_neg hzero, if_pos (hreject.resolve_left hzero)]
      exact ⟨_, rfl, restored_self⟩
  · have haccept := hreject
    rw [PoolSet.Rejects, not_or] at haccept
    rw [utilPoolExtend]
    simp only [hstart]
    rw [if_neg haccept.1, if_neg haccept.2]
    by_cases hfail : ∃ r, r < set.replica.length ∧ os.malloc r = false
    · refine iff_of_true ?_ (Or.inr hfail)
      obtain ⟨r, hr, hmalloc⟩ := hfail
      obtain ⟨paths, happend⟩ := utilPoolsetAppendNewPart_failed hdir hdirs hr hmalloc
      rw [happend]
      refine ⟨_, rfl, rfl, rfl, rfl, rfl, rfl, ?_, ?_⟩
      · rw [freed_append_map, allocated_append_map]
      · rw [unlinked_append_map, created_append_map]
    · refine iff_of_false ?_ (not_or.mpr ⟨hreject, hfail⟩)
      rintro ⟨e, h, hrestored⟩
      have hall : ∀ i, i < set.replica.length → os.malloc i = true := by
        intro i hi
        by_contra hnot
        exact hfail ⟨i, hi, Bool.eq_false_of_not_eq_true hnot⟩
      obtain ⟨set', effects, happend, hid⟩ := utilPoolsetAppendNewPart_all hdir hdirs hall
      rw [happend] at h
      have hkept := openNewParts_nextId h
      rw [hrestored.nextId, hid] at hkept
      exact succ_mod_ne _ _ (by decide) hkept.symm

/-! ## Two replicas -/

/-- A replica of one directory, with one part of 8 MiB that is mapped at `addr`. -/
def oneDirectory (dir : List Char) (addr : Nat) : Replica :=
  { part := [{ newPart 4096 (dir ++ "/000000.pmem".toList) 8388608 with
      addr := addr, size := 8388608 }]
    directory := [⟨dir, 67108864⟩]
    nhdrs := 1
    repsize := 8388608
    resvsize := 67108864
    remote := false }

def twoDirectories : PoolSet :=
  { replica := [oneDirectory ['x'] 1073741824, oneDirectory ['y'] 2147483648]
    poolsize := 8388608
    resvsize := 67108864
    singlehdr := true
    nohdrs := false
    directoryBased := true
    nextId := 1
    nextDirectoryId := 1
    zeroed := false }

theorem twoDirectories_directory : ∀ rep ∈ twoDirectories.replica, rep.directory ≠ [] := by
  intro rep hrep
  rcases mem_cons.mp hrep with rfl | hrep
  · exact cons_ne_nil _ _
  · obtain rfl := mem_singleton.mp hrep
    exact cons_ne_nil _ _

def answersBut (malloc mmap : Bool) : ExtendAnswers :=
  { malloc := fun r => r == 0 || malloc
    fileExists := fun _ => some false
    fileCreate := fun r => some (r + 3)
    fileOpen := fun _ => none
    mmap := fun r addr _ _ => ⟨if r == 0 || mmap then some addr else none, false, false⟩
    chmod := true }

/-- The path for replica 1 is not allocated. -/
theorem utilPoolExtend_restored_malloc :
    ∃ e, utilPoolExtend 4096 (answersBut false true) twoDirectories 4194304 2097152 = some e ∧
      Restored twoDirectories e :=
  (utilPoolExtend_restored_iff rfl rfl twoDirectories_directory).mpr (Or.inr ⟨1, by decide, rfl⟩)

/-- When the new part of replica 1 is not mapped, that replica loses both of its parts and the other
one keeps the new part. -/
theorem not_restored_mmap :
    ¬∀ (align size minpartsize : Nat) (os : ExtendAnswers) (set : PoolSet),
      set.directoryBased = true → set.singlehdr = true →
      (∀ rep ∈ set.replica, rep.directory ≠ []) →
      (∀ e, utilPoolExtend align os set size minpartsize = some e → e.addr = none) →
      ∃ e, utilPoolExtend align os set size minpartsize = some e ∧ Restored set e := by
  intro hall
  have hparts : (utilPoolExtend 4096 (answersBut true false) twoDirectories 4194304 2097152).any
      (fun e => e.addr == none && e.set.replica.map (·.part.length) == [2, 0]) = true := by
    decide +kernel
  obtain ⟨e, he, hany⟩ := (Option.any_eq_true _ _).mp hparts
  obtain ⟨haddr, hlen⟩ := (Bool.and_eq_true _ _).mp hany
  obtain ⟨e', he', hrestored⟩ := hall 4096 4194304 2097152
      (answersBut true false) twoDirectories rfl
    rfl twoDirectories_directory fun e' he' => by
      obtain rfl := Option.some.inj (he.symm.trans he')
      exact beq_iff_eq.mp haddr
  obtain rfl := Option.some.inj (he.symm.trans he')
  have hlens := congrArg (List.map List.length) hrestored.part
  rw [List.map_map, List.map_map] at hlens
  exact absurd (hlens.symm.trans (beq_iff_eq.mp hlen)) (by decide)

end Pmdk.Poolset
