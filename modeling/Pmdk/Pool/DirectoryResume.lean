import Pmdk.Lib.Run
import Pmdk.Pool.DirectoryFills
import Mathlib.Data.Int.CardIntervalMod

/-!
# Resuming a pool set of directories

The process that appends parts goes through the directories of each replica in turn. When the pool
set is loaded again, the same parts are found, but the next directory is the right one only if the
parts go evenly into the directories, or with one left over.
-/

namespace Pmdk.Poolset

open List

variable {align n D : Nat} {sizes : List Nat} {fresh : PoolSet}

/-! ## Appending parts -/

structure File where
  name : List Char
  size : Nat
  deriving DecidableEq

structure Running where
  set : PoolSet
  disk : Nat → Nat → List File

def Running.append (align size : Nat) (s : Running) : Option Running :=
  match utilPoolsetAppendNewPart align (fun _ => true) s.set size with
  | some (true, set, _) => some
      { set := set
        disk := fun r j =>
          match s.set.replica[r]? with
          | none => s.disk r j
          | some rep =>
            if j = s.set.nextDirectoryId % rep.directory.length then
              s.disk r j ++ [⟨partName s.set.nextId, size⟩]
            else s.disk r j }
  | _ => none

/-- The path of a file in a directory, as `fts_read` joins the two. -/
def Directory.join (d : Directory) (name : List Char) : List Char :=
  if d.path.getLast? = some '/' then d.path ++ name else d.path ++ '/' :: name

def File.entry (d : Directory) (file : File) : Entry :=
  ⟨d.join file.name, file.name, 1, true, some file.size⟩

def Running.Listed (s : Running) (fresh : PoolSet) (listing : Nat → Nat → List Entry) : Prop :=
  ∀ r rep, fresh.replica[r]? = some rep → ∀ j d, rep.directory[j]? = some d →
    ((listing r j).filter fun entry => entry.level == 1).Perm ((s.disk r j).map (File.entry d))

/-- `util_poolset_parse` behind the lines of the file. -/
def reload (align : Nat) (listing : Nat → Nat → List Entry) (set : PoolSet) : Option PoolSet :=
  (utilPoolsetDirectoriesLoad align listing set).map (utilPoolsetSetSize align)

/-- A pool set of directories that has no part yet, with `D` directories in each replica. -/
structure PoolSet.Fresh (D : Nat) (set : PoolSet) : Prop where
  directoryBased : set.directoryBased = true
  nonempty : set.replica ≠ []
  directory : ∀ rep ∈ set.replica, rep.directory.length = D
  part : ∀ rep ∈ set.replica, rep.part = []
  nextId : set.nextId = 0
  nextDirectoryId : set.nextDirectoryId = 0

def PoolSet.files (set : PoolSet) : List (List (List Char × Nat)) :=
  set.replica.map fun rep => rep.part.map fun part => (part.path, part.filesize)

/-- What is loaded again is as it was left after `n` parts. -/
structure Resumes (D n : Nat) (set loaded : PoolSet) : Prop where
  files : loaded.files = set.files
  nextId : loaded.nextId = n
  nextDirectoryId : loaded.nextDirectoryId % D = n % D

/-! ## The running process -/

def Replica.shown (rep : Replica) : List Directory × List (List Char × Nat) :=
  (rep.directory, rep.part.map fun part => (part.path, part.filesize))

def madePath (directory : List Directory) (i : Nat) : List Char :=
  (directory[i % directory.length]?.map (·.newPath i)).getD []

structure Made (fresh : PoolSet) (D : Nat) (sizes : List Nat) (s : Running) : Prop where
  directoryBased : s.set.directoryBased = true
  nextId : s.set.nextId = sizes.length
  nextDirectoryId : s.set.nextDirectoryId = sizes.length
  shown : s.set.replica.map Replica.shown = fresh.replica.map fun rep =>
    (rep.directory, sizes.mapIdx fun i size => (madePath rep.directory i, size))
  disk : ∀ r j, r < fresh.replica.length → s.disk r j =
    ((List.range sizes.length).filter fun i => i % D = j).map fun i =>
      ⟨partName i, sizes[i]?.getD 0⟩

theorem addParts_shown {set : PoolSet} {size r : Nat} {replica : List Replica}
    (hdirs : ∀ rep ∈ replica, rep.directory ≠ []) :
    ∃ replica' effects, addParts align (fun _ => true) set size r replica =
        some (none, replica', effects) ∧
      replica'.map Replica.shown = replica.map fun rep => (rep.directory, rep.shown.2 ++
        [((rep.directory[set.nextDirectoryId % rep.directory.length]?.map
          (·.newPath set.nextId)).getD [], size)]) := by
  induction replica generalizing r with
  | nil => exact ⟨[], [], rfl, rfl⟩
  | cons rep rest ih =>
    have hlt := Nat.mod_lt set.nextDirectoryId (length_pos_iff.mpr (hdirs rep mem_cons_self))
    obtain ⟨rest', effects, hrest, hshown⟩ :=
      ih (r := r + 1) fun rep' hrep' => hdirs rep' (mem_cons_of_mem rep hrep')
    rw [addParts, getElem?_eq_getElem hlt]
    dsimp only
    rw [if_pos rfl, hrest]
    refine ⟨_, _, rfl, ?_⟩
    rw [map_cons, map_cons, hshown, getElem?_eq_getElem hlt]
    congr 1
    rw [Replica.shown, map_append]
    rfl

theorem map_shown_setSize (set : PoolSet) :
    (utilPoolsetSetSize align set).replica.map Replica.shown = set.replica.map Replica.shown := by
  rw [utilPoolsetSetSize, map_map]
  rfl

variable {s : Running}

theorem Made.append (h : Made fresh D sizes s) {size : Nat} (hD : 0 < D)
    (hdirs : ∀ rep ∈ fresh.replica, rep.directory.length = D) (hn : sizes.length + 1 < 2 ^ 32) :
    ∃ s', s.append align size = some s' ∧ Made fresh D (sizes ++ [size]) s' := by
  have hdir : ∀ rep ∈ s.set.replica, rep.directory.length = D := by
    intro rep hrep
    have hmem : rep.shown ∈ fresh.replica.map fun rep =>
        (rep.directory, sizes.mapIdx fun i size => (madePath rep.directory i, size)) :=
      h.shown ▸ mem_map_of_mem hrep
    obtain ⟨old, hold, heq⟩ := mem_map.mp hmem
    have hdirectory : old.directory = rep.directory := (Prod.mk.inj heq).1
    exact hdirectory ▸ hdirs old hold
  obtain ⟨replica', effects, hadd, hshown⟩ := addParts_shown (r := 0) fun rep hrep hnil => by
      have hlen := hdir rep hrep
      rw [hnil] at hlen
      exact Nat.ne_of_gt hD hlen.symm
  have happend : utilPoolsetAppendNewPart align (fun _ => true) s.set size =
      some (true, utilPoolsetSetSize align { s.set with
        replica := replica'
        nextDirectoryId := (s.set.nextDirectoryId + 1) % 2 ^ 32
        nextId := (s.set.nextId + 1) % 2 ^ 32 }, effects) := by
    rw [utilPoolsetAppendNewPart, if_neg (by simp [h.directoryBased]), hadd]
  rw [Running.append, happend]
  refine ⟨_, rfl, h.directoryBased, ?_, ?_, ?_, fun r j hr => ?_⟩
  · show (s.set.nextId + 1) % 2 ^ 32 = _
    rw [h.nextId, length_append, Nat.mod_eq_of_lt hn]
    rfl
  · show (s.set.nextDirectoryId + 1) % 2 ^ 32 = _
    rw [h.nextDirectoryId, length_append, Nat.mod_eq_of_lt hn]
    rfl
  · rw [map_shown_setSize]
    refine hshown.trans ?_
    have hold := congrArg (List.map fun p : List Directory × List (List Char × Nat) =>
      (p.1, p.2 ++ [(madePath p.1 sizes.length, size)])) h.shown
    rw [map_map, map_map] at hold
    rw [h.nextDirectoryId, h.nextId]
    refine Eq.trans hold (map_congr_left fun rep _ => ?_)
    rw [Function.comp, mapIdx_concat]
  · obtain ⟨rep, hrep⟩ : ∃ rep, s.set.replica[r]? = some rep := by
      refine ⟨_, getElem?_eq_getElem ?_⟩
      have hlen := congrArg List.length h.shown
      rw [length_map, length_map] at hlen
      exact hlen ▸ hr
    dsimp only
    rw [hrep]
    dsimp only
    rw [hdir rep (mem_of_getElem? hrep), h.disk r j hr, h.nextDirectoryId, h.nextId,
      length_append, length_singleton, range_succ, filter_append,
      map_append]
    have hold : ((List.range sizes.length).filter fun i => i % D = j).map
          (fun i => (⟨partName i, sizes[i]?.getD 0⟩ : File)) =
        ((List.range sizes.length).filter fun i => i % D = j).map
          fun i => ⟨partName i, (sizes ++ [size])[i]?.getD 0⟩ := by
      refine map_congr_left fun i hi => ?_
      rw [getElem?_append_left (mem_range.mp (mem_filter.mp hi).1)]
    rw [hold]
    by_cases hj : j = sizes.length % D
    · rw [if_pos hj, filter_cons_of_pos (by simp [hj]), filter_nil, map_singleton,
        getElem?_concat_length]
      rfl
    · rw [if_neg hj, filter_cons_of_neg (by simpa using fun h => hj h.symm), filter_nil,
        map_nil, append_nil]

theorem made_run (hD : 0 < D) (h : fresh.Fresh D) (hn : sizes.length < 2 ^ 32)
    (hrun : Transition.run (Running.append align) sizes ⟨fresh, fun _ _ => []⟩ = some s) :
    Made fresh D sizes s := by
  induction sizes using List.reverseRecOn generalizing s with
  | nil =>
    obtain rfl := Option.some.inj hrun
    refine ⟨h.directoryBased, h.nextId, h.nextDirectoryId, map_congr_left fun rep hrep => ?_,
      fun _ _ _ => rfl⟩
    rw [Replica.shown, h.part rep hrep]
    rfl
  | append_singleton sizes size ih =>
    rw [length_append] at hn
    rw [Transition.run_append] at hrun
    obtain ⟨s₀, hfirst, hlast⟩ := Option.bind_eq_some_iff.mp hrun
    obtain ⟨s', happend, hmade⟩ := (ih (Nat.lt_of_succ_lt hn) hfirst).append hD h.directory hn
    rw [Transition.run_cons, happend] at hlast
    obtain rfl := Option.some.inj hlast
    exact hmade

/-! ## Round robin -/

def roundRobin (n D : Nat) : List (List Nat) :=
  (List.range D).map fun j => (List.range n).filter fun i => i % D = j

theorem roundRobin_perm (n : Nat) (hD : 0 < D) : (roundRobin n D).flatten.Perm (List.range n) := by
  refine (perm_ext_iff_of_nodup ?_ nodup_range).mpr fun i => ?_
  · refine nodup_flatten.mpr ⟨fun l hl => ?_, ?_⟩
    · obtain ⟨j, -, rfl⟩ := mem_map.mp hl
      exact nodup_range.filter _
    · refine pairwise_map.mpr (pairwise_lt_range.imp fun {j k} hlt => ?_)
      intro i hi hi'
      have hj := of_decide_eq_true (mem_filter.mp hi).2
      have hk := of_decide_eq_true (mem_filter.mp hi').2
      omega
  · rw [roundRobin, mem_flatten]
    constructor
    · rintro ⟨l, hl, hi⟩
      obtain ⟨j, -, rfl⟩ := mem_map.mp hl
      exact (mem_filter.mp hi).1
    · intro hi
      exact ⟨_, mem_map.mpr ⟨i % D, mem_range.mpr (Nat.mod_lt i hD), rfl⟩,
        mem_filter.mpr ⟨hi, decide_eq_true rfl⟩⟩

theorem length_filter_mod (n : Nat) {j : Nat} (hj : j < D) :
    ((List.range n).filter fun i => i % D = j).length = n / D + if j < n % D then 1 else 0 := by
  have hcount := Nat.count_modEq_card n (Nat.zero_lt_of_lt hj) j
  rw [Nat.mod_eq_of_lt hj] at hcount
  rw [← hcount, ← countP_eq_length_filter, Nat.count]
  refine countP_congr fun i _ => ?_
  rw [decide_eq_true_eq, decide_eq_true_eq, Nat.ModEq, Nat.mod_eq_of_lt hj]

theorem descents_replicate (q k : Nat) : descents q (List.replicate k q) = 0 := by
  induction k with
  | zero => rfl
  | succ k ih => rw [replicate_succ, descents, if_neg (Nat.lt_irrefl q), ih]

theorem descents_append (prev q m k : Nat) (hprev : prev ≤ q + 1) :
    descents prev (List.replicate m (q + 1) ++ List.replicate (k + 1) q) =
      if m = 0 ∧ prev ≤ q then 0 else 1 := by
  induction m generalizing prev with
  | zero =>
    rw [replicate_zero, nil_append, replicate_succ, descents, descents_replicate]
    by_cases hlt : q < prev
    · rw [if_pos hlt, if_neg (by omega)]
    · rw [if_neg hlt, if_pos ⟨rfl, Nat.not_lt.mp hlt⟩]
  | succ m ih =>
    rw [replicate_succ, cons_append, descents, if_neg (by omega),
      ih (q + 1) (Nat.le_refl _), if_neg (by omega), if_neg (by omega)]

/-- At most one directory has fewer parts than the one before it. -/
theorem descents_roundRobin (n : Nat) (hD : 0 < D) :
    descents 0 ((roundRobin n D).map List.length) = if n % D = 0 then 0 else 1 := by
  have hlt := Nat.mod_lt n hD
  have hlengths : (roundRobin n D).map List.length =
      List.replicate (n % D) (n / D + 1) ++ List.replicate (D - n % D - 1 + 1) (n / D) := by
    refine ext_getElem? fun j => ?_
    rw [roundRobin, map_map, getElem?_map]
    by_cases hj : j < D
    · rw [getElem?_range hj, Option.map_some, Function.comp, length_filter_mod n hj]
      by_cases hlow : j < n % D
      · rw [getElem?_append_left (by rw [length_replicate]; exact hlow),
          getElem?_replicate_of_lt hlow, if_pos hlow]
      · rw [getElem?_append_right (by rw [length_replicate]; omega),
          length_replicate, getElem?_replicate_of_lt (by omega), if_neg hlow,
          Nat.add_zero]
    · rw [getElem?_eq_none (by rw [length_range]; omega), Option.map_none, getElem?_eq_none (by
          rw [length_append, length_replicate, length_replicate]
          omega)]
  rw [hlengths, descents_append 0 _ _ _ (Nat.zero_le _)]
  simp

/-! ## Loading again -/

def joinPath (directory : List Directory) (i : Nat) : List Char :=
  (directory[i % directory.length]?.map (·.join (partName i))).getD []

theorem join_eq (d : Directory) (name : List Char) : ∃ start, d.join name = start ++ name := by
  rw [Directory.join]
  split
  · exact ⟨d.path, rfl⟩
  · exact ⟨d.path ++ ['/'], by rw [append_assoc]; rfl⟩

theorem isPart_entry (d : Directory) {i : Nat} (hi : i < 2 ^ 63) (size : Nat) :
    (File.entry d ⟨partName i, size⟩).isPart = true := by
  obtain ⟨start, hjoin⟩ := join_eq d (partName i)
  have hpath : (d.join (partName i)).drop ((d.join (partName i)).length - 5) = ".pmem".toList := by
    rw [hjoin, partName, ← append_assoc, length_append]
    exact List.drop_left' (Nat.add_sub_cancel _ 5).symm
  have hlen : 6 ≤ (partName i).length := by
    rw [partName, length_append]
    exact Nat.le_add_right_of_le (length_padded i)
  rw [Entry.isPart, File.entry]
  dsimp only
  rw [hpath, utilPartIdxByFileName_partName hi, decide_eq_true hlen,
    decide_eq_true (Int.natCast_nonneg i)]
  rfl

theorem Made.lists (h : Made fresh D sizes s) (hn : sizes.length < 2 ^ 32)
    {listing : Nat → Nat → List Entry} (hlisted : s.Listed fresh listing) {r j : Nat}
    {rep : Replica} (hrep : fresh.replica[r]? = some rep) (hlen : rep.directory.length = D)
    {d : Directory} (hd : rep.directory[j]? = some d) :
    Lists (fun i => (joinPath rep.directory i, sizes[i]?.getD 0)) sizes.length (listing r j)
      ((List.range sizes.length).filter fun i => i % D = j) := by
  have hperm := hlisted r rep hrep j d hd
  rw [h.disk r j (List.getElem?_eq_some_iff.mp hrep).1, map_map] at hperm
  have hentry : ∀ entry ∈ listing r j, (entry.level == 1) = true → ∃ i, i < sizes.length ∧
      i % D = j ∧ entry = File.entry d ⟨partName i, sizes[i]?.getD 0⟩ := by
    intro entry hmem hlevel
    obtain ⟨i, hi, rfl⟩ := mem_map.mp (hperm.mem_iff.mp (mem_filter.mpr ⟨hmem, hlevel⟩))
    obtain ⟨hi, hj⟩ := mem_filter.mp hi
    exact ⟨i, mem_range.mp hi, of_decide_eq_true hj, rfl⟩
  have hidx : ∀ i, i < sizes.length → (File.entry d ⟨partName i, sizes[i]?.getD 0⟩).idx = i := by
    intro i hi
    rw [Entry.idx, File.entry, utilPartIdxByFileName_partName (by omega), Int.toNat_natCast]
  refine ⟨fun entry hmem hpart => ?_, ?_⟩
  · have hlevel : (entry.level == 1) = true := by
      rw [Entry.isPart] at hpart
      simp only [Bool.and_eq_true] at hpart
      exact hpart.1.1.1.1
    obtain ⟨i, hi, hj, rfl⟩ := hentry entry hmem hlevel
    rw [hidx i hi]
    refine ⟨hi, ?_, rfl⟩
    rw [joinPath, hlen, hj, hd]
    rfl
  · have hfilter : (listing r j).filter Entry.isPart =
        (listing r j).filter fun entry => entry.level == 1 := by
      refine filter_congr fun entry hmem => ?_
      cases hlevel : entry.level == 1 with
      | true =>
        obtain ⟨i, hi, -, rfl⟩ := hentry entry hmem hlevel
        exact isPart_entry d (by omega) _
      | false => simp [Entry.isPart, hlevel]
    rw [hfilter]
    refine (hperm.map Entry.idx).trans (List.Perm.of_eq ?_)
    rw [map_map]
    refine (map_congr_left fun i hi => ?_).trans (map_id _)
    exact hidx i (mem_range.mp (mem_filter.mp hi).1)

/-- What is loaded again has all parts, and counts on from there. -/
theorem Made.reload (h : Made fresh D sizes s) (hD : 0 < D) (hfresh : fresh.Fresh D)
    (hn : sizes.length < 2 ^ 32) {listing : Nat → Nat → List Entry}
    (hlisted : s.Listed fresh listing) :
    ∃ loaded, reload align listing fresh = some loaded ∧ loaded.nextId = sizes.length ∧
      loaded.nextDirectoryId = (if sizes.length % D = 0 then 0 else 1) ∧
      loaded.files = fresh.replica.map fun rep =>
        (List.range sizes.length).map fun i => (joinPath rep.directory i, sizes[i]?.getD 0) := by
  let P : Nat → Nat → List Char × Nat := fun r i =>
    (joinPath ((fresh.replica[r]?.map (·.directory)).getD []) i, sizes[i]?.getD 0)
  have hfound : ∀ r entries,
      (fresh.replica.mapIdx fun r rep => rep.directory.mapIdx fun j _ => listing r j)[r]? =
        some entries → List.Forall₂ (Lists (P r) sizes.length) entries
          (roundRobin sizes.length D) := by
    intro r entries hr
    rw [getElem?_mapIdx] at hr
    obtain ⟨rep, hrep, rfl⟩ := Option.map_eq_some_iff.mp hr
    have hlen := hfresh.directory rep (mem_of_getElem? hrep)
    have hP : P r = fun i => (joinPath rep.directory i, sizes[i]?.getD 0) := by
      funext i
      show (joinPath ((fresh.replica[r]?.map (·.directory)).getD []) i, _) = _
      rw [hrep]
      rfl
    refine forall₂_iff_get.mpr ⟨?_, fun j hj hj' => ?_⟩
    · rw [length_mapIdx, roundRobin, length_map, length_range, hlen]
    · rw [length_mapIdx] at hj
      have hlists := h.lists hn hlisted hrep hlen (getElem?_eq_getElem hj)
      rw [← hP] at hlists
      simpa [roundRobin] using hlists
  have hdesc := descents_roundRobin sizes.length hD
  have hne :
      (fresh.replica.mapIdx fun r rep => rep.directory.mapIdx fun j _ => listing r j) ≠ [] := by
    intro hnil
    exact hfresh.nonempty (mapIdx_eq_nil_iff.mp hnil)
  have hdirs : fresh.nextDirectoryId +
      descents 0 ((roundRobin sizes.length D).map List.length) < 2 ^ 32 := by
    rw [hdesc, hfresh.nextDirectoryId]
    split <;> decide
  obtain ⟨s', hload, hloading, hlength, hid, hdir⟩ :=
    loadReplicas_spec (roundRobin_perm sizes.length hD) hn hdirs hne hfound
  obtain ⟨most, -, hmost, hnparts⟩ := hloading.exists_most []
  obtain ⟨replica', hrecreate, hlength', hparts⟩ := recreateAll_complete hnparts
    (hlength.trans length_mapIdx) hloading.complete
  refine ⟨utilPoolsetSetSize align { fresh with
    replica := replica'
    nextId := s'.nextId
    nextDirectoryId := s'.nextDirectoryId }, ?_, hid, ?_, ?_⟩
  · rw [Poolset.reload, utilPoolsetDirectoriesLoad, if_neg (by simp [hfresh.directoryBased])]
    dsimp only
    rw [hload]
    dsimp only
    rw [hloading.most, hmost]
    dsimp only
    rw [hrecreate]
    rfl
  · show s'.nextDirectoryId = _
    rw [hdir, hdesc, hfresh.nextDirectoryId, Nat.zero_add]
  · have hfiles : (utilPoolsetSetSize align { fresh with
        replica := replica'
        nextId := s'.nextId
        nextDirectoryId := s'.nextDirectoryId }).files =
          replica'.map fun rep => rep.part.map fun part => (part.path, part.filesize) := by
      rw [PoolSet.files, utilPoolsetSetSize, map_map]
      rfl
    rw [hfiles]
    refine ext_getElem? fun r => ?_
    rw [getElem?_map, getElem?_map]
    by_cases hr : r < replica'.length
    · rw [getElem?_eq_getElem hr, Option.map_some, hparts r _ (getElem?_eq_getElem hr),
        getElem?_eq_getElem (hlength' ▸ hr), Option.map_some]
      congr 1
      refine map_congr_left fun i _ => ?_
      show (joinPath ((fresh.replica[r]?.map (·.directory)).getD []) i, _) = _
      rw [getElem?_eq_getElem (hlength' ▸ hr)]
      rfl
    · rw [getElem?_eq_none (by omega), getElem?_eq_none (by omega)]
      rfl

/-! ## When the process resumes where it stopped -/

def NoSlash (fresh : PoolSet) (n : Nat) : Prop :=
  ∀ rep ∈ fresh.replica, ∀ j, j < n → ∀ d, rep.directory[j]? = some d → d.path.getLast? ≠ some '/'

theorem join_eq_newPath_iff (d : Directory) (i : Nat) :
    d.join (partName i) = d.newPath i ↔ d.path.getLast? ≠ some '/' := by
  rw [Directory.join, newPath_eq]
  by_cases hslash : d.path.getLast? = some '/'
  · rw [if_pos hslash]
    refine iff_of_false (fun heq => ?_) (not_not_intro hslash)
    have hlen := congrArg List.length (append_cancel_left heq)
    rw [length_cons] at hlen
    omega
  · rw [if_neg hslash]
    exact iff_of_true rfl hslash

/-- The same paths are found again if and only if no slash is doubled. -/
theorem files_eq_iff (hD : 0 < D) (hfresh : fresh.Fresh D) :
    (fresh.replica.map fun rep =>
        (List.range sizes.length).map fun i => (joinPath rep.directory i, sizes[i]?.getD 0)) =
      (fresh.replica.map fun rep => sizes.mapIdx fun i size => (madePath rep.directory i, size)) ↔
      NoSlash fresh sizes.length := by
  have hpaths : ∀ rep ∈ fresh.replica, ∀ i, ∃ d, rep.directory[i % D]? = some d ∧
      joinPath rep.directory i = d.join (partName i) ∧ madePath rep.directory i = d.newPath i := by
    intro rep hrep i
    have hlen := hfresh.directory rep hrep
    have hlt : i % D < rep.directory.length := hlen.symm ▸ Nat.mod_lt i hD
    refine ⟨_, getElem?_eq_getElem hlt, ?_, ?_⟩
    · rw [joinPath, hlen, getElem?_eq_getElem hlt]
      rfl
    · rw [madePath, hlen, getElem?_eq_getElem hlt]
      rfl
  have hmade : ∀ rep : Replica, (sizes.mapIdx fun i size => (madePath rep.directory i, size)) =
      (List.range sizes.length).map fun i => (madePath rep.directory i, sizes[i]?.getD 0) := by
    intro rep
    refine ext_getElem? fun i => ?_
    rw [getElem?_mapIdx, getElem?_map]
    by_cases hi : i < sizes.length
    · rw [getElem?_eq_getElem hi, getElem?_range hi, Option.map_some, Option.map_some,
        getElem?_eq_getElem hi, Option.getD_some]
    · rw [getElem?_eq_none (by omega), getElem?_eq_none (by rw [length_range]; omega)]
      rfl
  simp only [hmade, map_inj_left, mem_range, Prod.mk.injEq, and_true]
  constructor
  · intro heq rep hrep j hj d hd
    obtain ⟨d', hd', hjoin, hnew⟩ := hpaths rep hrep j
    have hjD : j < D := hfresh.directory rep hrep ▸ (List.getElem?_eq_some_iff.mp hd).1
    rw [Nat.mod_eq_of_lt hjD, hd] at hd'
    obtain rfl := Option.some.inj hd'
    exact (join_eq_newPath_iff d j).mp (hjoin.symm.trans ((heq rep hrep j hj).trans hnew))
  · intro hslash rep hrep i hi
    obtain ⟨d, hd, hjoin, hnew⟩ := hpaths rep hrep i
    have hlt := Nat.lt_of_le_of_lt (Nat.mod_le i D) hi
    rw [hjoin, hnew]
    exact (join_eq_newPath_iff d i).mpr (hslash rep hrep _ hlt d hd)

/-- Loading the pool set again resumes where the process has stopped if and only if at most one part
is left over when the parts are divided among the directories, and no slash is doubled. -/
theorem reload_resumes_iff (hD : 0 < D) (hfresh : fresh.Fresh D) (hn : sizes.length < 10 ^ 6)
    {s : Running}
    (hrun : Transition.run (Running.append align) sizes ⟨fresh, fun _ _ => []⟩ = some s)
    {listing : Nat → Nat → List Entry} (hlisted : s.Listed fresh listing) :
    (∃ loaded, reload align listing fresh = some loaded ∧
        Resumes D sizes.length s.set loaded) ↔
      sizes.length % D ≤ 1 ∧ NoSlash fresh sizes.length := by
  have hlt : sizes.length < 2 ^ 32 := Nat.lt_trans hn (by decide)
  have hmade := made_run hD hfresh hlt hrun
  obtain ⟨loaded, hload, hid, hdir, hfiles⟩ := hmade.reload hD hfresh hlt hlisted
  have hshown : s.set.files = fresh.replica.map fun rep =>
      sizes.mapIdx fun i size => (madePath rep.directory i, size) := by
    have hsnd := congrArg (List.map Prod.snd) hmade.shown
    rw [List.map_map, List.map_map] at hsnd
    exact hsnd
  have hsame : loaded.files = s.set.files ↔ NoSlash fresh sizes.length := by
    rw [hfiles, hshown]
    exact files_eq_iff hD hfresh
  have hturn : loaded.nextDirectoryId % D = sizes.length % D ↔ sizes.length % D ≤ 1 := by
    rw [hdir]
    have hmod := Nat.mod_lt sizes.length hD
    split
    · rw [Nat.zero_mod]
      omega
    · rw [Nat.mod_eq_of_lt (by omega : 1 < D)]
      omega
  constructor
  · rintro ⟨loaded', hload', hresumes⟩
    obtain rfl := Option.some.inj (hload.symm.trans hload')
    exact ⟨hturn.mp hresumes.nextDirectoryId, hsame.mp hresumes.files⟩
  · rintro ⟨hrest, hslash⟩
    exact ⟨loaded, hload, hsame.mpr hslash, hid, hturn.mpr hrest⟩

/-! ## One replica -/

def oneReplica (dirs : List (List Char)) : PoolSet :=
  { replica := [⟨[], dirs.map fun dir => ⟨dir, 67108864⟩, 1, 0, 134217728, false⟩]
    poolsize := 0
    resvsize := 134217728
    singlehdr := true
    nohdrs := false
    directoryBased := true
    nextId := 0
    nextDirectoryId := 0
    zeroed := false }

theorem oneReplica_fresh (dirs : List (List Char)) : (oneReplica dirs).Fresh dirs.length := by
  refine ⟨rfl, cons_ne_nil _ _, fun rep hrep => ?_, fun rep hrep => ?_, rfl, rfl⟩
  · obtain rfl := mem_singleton.mp hrep
    exact length_map _
  · obtain rfl := mem_singleton.mp hrep
    rfl

def Running.listing (s : Running) (fresh : PoolSet) (r j : Nat) : List Entry :=
  match fresh.replica[r]?.bind (·.directory[j]?) with
  | none => []
  | some d => (s.disk r j).map (File.entry d)

theorem Running.listed_listing (s : Running) (fresh : PoolSet) :
    s.Listed fresh (s.listing fresh) := by
  intro r rep hrep j d hd
  rw [Running.listing, hrep, Option.bind_some, hd]
  refine List.Perm.of_eq (filter_eq_self.mpr fun entry hmem => ?_)
  obtain ⟨file, -, rfl⟩ := mem_map.mp hmem
  rfl

/-- Three parts in two directories. -/
theorem reload_resumes_two : ∃ s loaded,
    Transition.run (Running.append 4096) [8388608, 4194304, 4194304]
      ⟨oneReplica ["/x".toList, "/y".toList], fun _ _ => []⟩ = some s ∧
    reload 4096 (s.listing (oneReplica ["/x".toList, "/y".toList]))
      (oneReplica ["/x".toList, "/y".toList]) = some loaded ∧ Resumes 2 3 s.set loaded := by
  have hsome : (Transition.run (Running.append 4096) [8388608, 4194304, 4194304]
      ⟨oneReplica ["/x".toList, "/y".toList], fun _ _ => []⟩).isSome = true := by decide +kernel
  obtain ⟨s, hrun⟩ := Option.isSome_iff_exists.mp hsome
  obtain ⟨loaded, hload, hresumes⟩ := (reload_resumes_iff Nat.two_pos
    (oneReplica_fresh ["/x".toList, "/y".toList]) (by decide) hrun
    (s.listed_listing _)).mpr ⟨by decide, fun rep hrep j hj d hd => by
      obtain rfl := List.mem_singleton.mp hrep
      match j, hd with
      | 0, hd => cases hd; decide
      | 1, hd => cases hd; decide⟩
  exact ⟨s, loaded, hrun, hload, hresumes⟩

/-- Two parts in three directories: the next one goes to the second directory again. -/
theorem not_resumes_three :
    ¬∀ (align D : Nat) (sizes : List Nat) (fresh : PoolSet) (s : Running)
      (listing : Nat → Nat → List Entry), 0 < D → fresh.Fresh D → 0 < sizes.length →
      sizes.length < 10 ^ 6 →
      Transition.run (Running.append align) sizes ⟨fresh, fun _ _ => []⟩ = some s →
      s.Listed fresh listing →
      ∃ loaded, reload align listing fresh = some loaded ∧
        Resumes D sizes.length s.set loaded := by
  intro hall
  have hfresh := oneReplica_fresh ["/x".toList, "/y".toList, "/z".toList]
  have hsome : (Transition.run (Running.append 4096) [8388608, 4194304]
      ⟨oneReplica ["/x".toList, "/y".toList, "/z".toList], fun _ _ => []⟩).isSome = true := by
    decide +kernel
  obtain ⟨s, hrun⟩ := Option.isSome_iff_exists.mp hsome
  have hlisted := s.listed_listing (oneReplica ["/x".toList, "/y".toList, "/z".toList])
  obtain ⟨loaded, hload, hresumes⟩ := hall 4096 3 _ _ s _ (by decide) hfresh (by decide)
    (by decide) hrun hlisted
  obtain ⟨loaded', hload', -, hdir, -⟩ := (made_run (by decide) hfresh (by decide) hrun).reload
    (by decide) hfresh (by decide) hlisted
  obtain rfl := Option.some.inj (hload.symm.trans hload')
  have hturn := hresumes.nextDirectoryId
  rw [hdir] at hturn
  exact absurd hturn (by decide)

end Pmdk.Poolset
