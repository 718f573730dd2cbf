import Pmdk.Pool.DirectoryLoad

/-!
# What is loaded from a directory

The entries of a directory come in any order, and so do the indices of the parts.
-/

namespace Pmdk.Poolset

open List

variable {align n : Nat} {P : Nat → List Char × Nat} {done idxs : List Nat} {rep : Loaded}
  {entries : List Entry}

/-! ## Names -/

def partName (id : Nat) : List Char := padded id ++ ".pmem".toList

theorem newPath_eq (d : Directory) (id : Nat) : d.newPath id = d.path ++ '/' :: partName id := by
  rw [Directory.newPath, partName, append_assoc, cons_append]

theorem length_padded (id : Nat) : 6 ≤ (padded id).length := by
  rw [padded, length_append, length_replicate]
  omega

theorem isDigit_padded (id : Nat) : ∀ ch ∈ padded id, ch.isDigit = true := by
  intro ch hch
  rcases mem_append.mp hch with hch | hch
  · obtain ⟨-, rfl⟩ := mem_replicate.mp hch
    rfl
  · exact Nat.isDigit_of_mem_toDigits (by decide) (by decide) hch

theorem ofDigitChars_padded (id : Nat) : Nat.ofDigitChars 10 (padded id) 0 = id := by
  rw [padded, Nat.ofDigitChars_append, Nat.ofDigitChars_replicate_zero, Nat.mul_zero,
    Nat.ofDigitChars_toDigits (by decide) (by decide)]

theorem isspace_of_isDigit {ch : Char} (h : ch.isDigit = true) : ¬isspace ch = true := by
  intro hspace
  obtain ⟨hlo, -⟩ := Char.isDigit_iff_toNat.mp h
  have hzero : '0'.toNat = 48 := rfl
  rw [isspace, Bool.or_eq_true, Bool.and_eq_true, beq_iff_eq] at hspace
  rcases hspace with rfl | ⟨-, hle⟩
  · exact absurd hlo (by decide)
  · have hle := of_decide_eq_true hle
    omega

theorem utilPartIdxByFileName_partName {id : Nat} (h : id < 2 ^ 63) :
    utilPartIdxByFileName (partName id) = id := by
  have hlen := length_padded id
  have hdigits := isDigit_padded id
  obtain ⟨ch, rest, hcons⟩ := exists_cons_of_length_pos (Nat.lt_of_lt_of_le (by decide) hlen)
  have hch : ch.isDigit = true := hdigits ch (hcons ▸ mem_cons_self)
  have hvalue : strtolValue false (partName id) = some (id : Int) := by
    have htake : (partName id).takeWhile Char.isDigit = padded id := by
      rw [partName, takeWhile_append_of_pos hdigits]
      exact append_nil _
    rw [strtolValue, htake, ofDigitChars_padded]
    rw [if_neg Bool.false_ne_true, if_neg (by omega)]
  have hname : partName id = ch :: (rest ++ ".pmem".toList) := by
    rw [partName, hcons, cons_append]
  have hstrtol : strtol (partName id) = strtolValue false (partName id) := by
    rw [hname, strtol, dropWhile_cons_of_neg (isspace_of_isDigit hch)]
    split
    · rename_i heq
      obtain ⟨rfl, -⟩ := List.cons.inj heq
      exact absurd hch (by decide)
    · rename_i heq
      obtain ⟨rfl, -⟩ := List.cons.inj heq
      exact absurd hch (by decide)
    · rfl
  rw [utilPartIdxByFileName, hstrtol, hvalue]
  rfl

/-! ## Directories -/

def Entry.idx (entry : Entry) : Nat := (utilPartIdxByFileName entry.name).toNat

/-- The parts in a directory have the indices `idxs`, in any order; part `i` has the path and the
size `P i`. -/
structure Lists (P : Nat → List Char × Nat) (n : Nat) (entries : List Entry) (idxs : List Nat) :
    Prop where
  known : ∀ entry ∈ entries, entry.isPart = true → entry.idx < n ∧
    entry.path = (P entry.idx).1 ∧ entry.size = some (P entry.idx).2
  perm : ((entries.filter Entry.isPart).map Entry.idx).Perm idxs

/-- The parts with the indices of `done` have been loaded. -/
structure Fills (P : Nat → List Char × Nat) (n : Nat) (done : List Nat) (rep : Loaded) : Prop where
  nparts : rep.nparts = done.length
  length : rep.part.length ≤ n
  part : ∀ i ∈ done, ∃ part, rep.part[i]? = some part ∧ (part.path, part.filesize) = P i

theorem fills_nil : Fills P n [] ⟨[], 0⟩ := ⟨rfl, Nat.zero_le n, fun _ h => by cases h⟩

theorem Fills.add (h : Fills P n done rep) {i : Nat} (hi : i < n) :
    Fills P n (done ++ [i]) (utilReplicaAddPartByIdx align (P i).1 (P i).2 i rep) := by
  have hlength := h.length
  have hlen : (rep.part ++ List.replicate (i + 1 - rep.part.length) zeroPart).length =
      max rep.part.length (i + 1) := by
    rw [length_append, length_replicate]
    omega
  refine ⟨?_, ?_, fun j hj => ?_⟩
  · rw [utilReplicaAddPartByIdx, length_append, h.nparts]
    rfl
  · rw [utilReplicaAddPartByIdx, length_modify, hlen]
    omega
  · rw [utilReplicaAddPartByIdx, getElem?_modify]
    by_cases hij : i = j
    · subst hij
      have hlt : i < (rep.part ++ List.replicate (i + 1 - rep.part.length) zeroPart).length := by
        rw [hlen]
        omega
      rw [getElem?_eq_getElem hlt]
      exact ⟨_, congrArg some (if_pos rfl), rfl⟩
    · have hdone : j ∈ done := by
        rcases mem_append.mp hj with hj | hj
        · exact hj
        · exact absurd (mem_singleton.mp hj).symm hij
      obtain ⟨part, hget, hpart⟩ := h.part j hdone
      have hlt := (List.getElem?_eq_some_iff.mp hget).1
      rw [getElem?_append_left hlt, hget]
      exact ⟨part, congrArg some (if_neg hij), hpart⟩

theorem Fills.directory (h : Fills P n done rep) (hn : n < 2 ^ 32)
    (hknown : ∀ entry ∈ entries, entry.isPart = true → entry.idx < n ∧
      entry.path = (P entry.idx).1 ∧ entry.size = some (P entry.idx).2) :
    ∃ rep', utilPoolsetDirectoryLoad align entries rep =
        some (((entries.filter Entry.isPart).map Entry.idx).length, rep') ∧
      Fills P n (done ++ (entries.filter Entry.isPart).map Entry.idx) rep' := by
  induction entries generalizing done rep with
  | nil => exact ⟨rep, rfl, (append_nil done).symm ▸ h⟩
  | cons entry rest ih =>
    have hrest := fun e he => hknown e (mem_cons_of_mem entry he)
    rw [utilPoolsetDirectoryLoad]
    by_cases hpart : entry.isPart = true
    · obtain ⟨hidx, hpath, hsize⟩ := hknown entry mem_cons_self hpart
      obtain ⟨rep', hload, hfills⟩ := ih (h.add hidx) hrest
      have hmod : (utilPartIdxByFileName entry.name).toNat % 2 ^ 32 = entry.idx :=
        Nat.mod_eq_of_lt (Nat.lt_trans hidx hn)
      rw [if_pos hpart, hsize, hpath, filter_cons_of_pos hpart, map_cons]
      dsimp only
      rw [hmod, hload]
      refine ⟨rep', rfl, ?_⟩
      rw [append_cons]
      exact hfills
    · rw [if_neg hpart, filter_cons_of_neg hpart]
      exact ih h hrest

def descents : Nat → List Nat → Nat
  | _, [] => 0
  | prev, k :: rest => (if k < prev then 1 else 0) + descents k rest

theorem Fills.replica {first : Bool} {found : List (List Entry)} {idxs : List (List Nat)}
    (hfound : List.Forall₂ (Lists P n) found idxs) (hn : n < 2 ^ 32) {s : Progress}
    (h : Fills P n done s.rep) (hid : s.nextPartId + idxs.flatten.length < 2 ^ 32)
    (hdir : first = true →
      s.nextDirectoryId + descents s.nparts (idxs.map List.length) < 2 ^ 32) :
    ∃ p is, loadReplica align first found s = some p ∧ is.Perm idxs.flatten ∧
      Fills P n (done ++ is) p.rep ∧ p.nextPartId = s.nextPartId + idxs.flatten.length ∧
      p.nextDirectoryId = s.nextDirectoryId +
        if first then descents s.nparts (idxs.map List.length) else 0 := by
  induction hfound generalizing done s with
  | nil =>
    refine ⟨s, [], rfl, List.Perm.refl [], (append_nil done).symm ▸ h, rfl, ?_⟩
    split <;> rfl
  | @cons entries is found idxs hentries _ ih =>
    rw [flatten_cons, length_append] at hid
    rw [map_cons, descents] at hdir
    obtain ⟨rep', hload, hfills⟩ := h.directory hn hentries.known
    have hlen := hentries.perm.length_eq
    rw [hlen] at hload
    rw [loadReplica, hload]
    dsimp only
    have hnext : (if first && decide (is.length < s.nparts) then (s.nextDirectoryId + 1) % 2 ^ 32
        else s.nextDirectoryId) =
        s.nextDirectoryId + if first then (if is.length < s.nparts then 1 else 0) else 0 := by
      cases first with
      | false => rfl
      | true =>
        have hdir := hdir rfl
        by_cases hlt : is.length < s.nparts
        · rw [if_pos hlt] at hdir
          simp only [Bool.true_and, hlt, decide_true, if_true]
          exact Nat.mod_eq_of_lt (by omega)
        · simp [hlt]
    rw [hnext, Nat.mod_eq_of_lt (by omega)]
    obtain ⟨p, is', hrest, hperm, hfills', hpart, hdirs⟩ := ih hfills (s := ⟨rep', is.length,
      s.nextPartId + is.length, s.nextDirectoryId +
        if first then (if is.length < s.nparts then 1 else 0) else 0⟩) (by
          dsimp only
          omega) (by
          intro hfirst
          have hdir := hdir hfirst
          rw [if_pos hfirst]
          dsimp only
          omega)
    refine ⟨p, _, hrest, ?_, (append_assoc ..) ▸ hfills', ?_, ?_⟩
    · rw [flatten_cons]
      exact hentries.perm.append hperm
    · rw [hpart, flatten_cons, length_append, Nat.add_assoc]
    · rw [hdirs, map_cons, descents, Nat.add_assoc]
      split <;> rfl

structure Complete (P : Nat → List Char × Nat) (n : Nat) (rep : Loaded) : Prop where
  nparts : rep.nparts = n
  part : rep.part.map (fun part => (part.path, part.filesize)) = (List.range n).map P

theorem Fills.complete (h : Fills P n done rep) (hperm : done.Perm (List.range n)) :
    Complete P n rep := by
  have hlen : done.length = n := hperm.length_eq.trans length_range
  refine ⟨h.nparts.trans hlen, ext_getElem? fun i => ?_⟩
  rw [getElem?_map, getElem?_map]
  by_cases hi : i < n
  · obtain ⟨part, hget, hpart⟩ := h.part i (hperm.mem_iff.mpr (mem_range.mpr hi))
    rw [hget, getElem?_range hi]
    exact congrArg some hpart
  · have hlength := h.length
    rw [getElem?_eq_none (by omega), getElem?_eq_none (by rw [length_range]; omega)]
    rfl

structure Loading (P : Nat → Nat → List Char × Nat) (n : Nat) (s : LoadedSet) : Prop where
  pos : 0 < s.loaded.length
  most : s.maxPartsRep = 0
  complete : ∀ r rep, s.loaded[r]? = some rep → Complete (P r) n rep

theorem Loading.exists_most {P : Nat → Nat → List Char × Nat} {s : LoadedSet}
    (h : Loading P n s) (more : List Loaded) :
    ∃ most, (s.loaded ++ more)[0]? = some most ∧ s.loaded[0]? = some most ∧ most.nparts = n := by
  obtain ⟨most, hget⟩ : ∃ most, s.loaded[0]? = some most := ⟨_, getElem?_eq_getElem h.pos⟩
  refine ⟨most, ?_, hget, (h.complete 0 _ hget).nparts⟩
  rw [getElem?_append_left h.pos, hget]

theorem Loading.replicas {P : Nat → Nat → List Char × Nat} {idxs : List (List Nat)}
    (hidxs : idxs.flatten.Perm (List.range n)) (hn : n < 2 ^ 32) {s : LoadedSet}
    (h : Loading P n s) {found : List (List (List Entry))}
    (hfound : ∀ i entries, found[i]? = some entries →
      List.Forall₂ (Lists (P (s.loaded.length + i)) n) entries idxs) :
    ∃ s', loadReplicas align found s = some s' ∧ Loading P n s' ∧
      s'.loaded.length = s.loaded.length + found.length ∧ s'.nextId = s.nextId ∧
      s'.nextDirectoryId = s.nextDirectoryId := by
  have hlen : idxs.flatten.length = n := hidxs.length_eq.trans length_range
  induction found generalizing s with
  | nil => exact ⟨s, rfl, h, rfl, rfl, rfl⟩
  | cons listing found ih =>
    obtain ⟨p, is, hload, hperm, hfills, hid, hdir⟩ := fills_nil.replica
      (hfound 0 listing rfl) hn (s := ⟨⟨[], 0⟩, 0, 0, s.nextDirectoryId⟩)
      (by rw [hlen]; exact (Nat.zero_add n).symm ▸ hn)
      (fun hfirst => (Bool.false_ne_true hfirst).elim)
    have hcomplete := hfills.complete (hperm.trans hidxs)
    obtain ⟨most, hmost, -, hnparts⟩ := h.exists_most [p.rep]
    have hfirst : (s.loaded.length == 0) = false := beq_eq_false_iff_ne.mpr (Nat.ne_of_gt h.pos)
    have hid : p.nextPartId = n := by
      rw [hid, hlen]
      exact Nat.zero_add n
    rw [loadReplicas]
    dsimp only
    rw [hfirst, hload]
    dsimp only
    rw [h.most, hmost]
    dsimp only
    rw [if_neg (by omega), if_neg (Nat.ne_of_gt h.pos)]
    have hnext : Loading P n ⟨s.loaded ++ [p.rep], 0, s.nextId, p.nextDirectoryId⟩ := by
      refine ⟨by simp, rfl, fun r rep hr => ?_⟩
      rcases Nat.lt_trichotomy r s.loaded.length with hlt | rfl | hgt
      · exact h.complete r rep ((getElem?_append_left hlt).symm.trans hr)
      · rw [getElem?_concat_length] at hr
        obtain rfl := Option.some.inj hr
        exact hcomplete
      · rw [getElem?_eq_none (by rw [length_append]; exact hgt)] at hr
        cases hr
    obtain ⟨s', hrest, hloading, hlength, hnextId, hnextDir⟩ := ih hnext fun i entries hi => by
      have hlists := hfound (i + 1) entries hi
      rw [length_append]
      rw [← Nat.add_assoc, Nat.add_right_comm] at hlists
      exact hlists
    refine ⟨s', hrest, hloading, ?_, hnextId, hnextDir.trans hdir⟩
    simp only [hlength, length_append, length_cons, length_nil]
    omega

theorem loadReplicas_spec {P : Nat → Nat → List Char × Nat} {idxs : List (List Nat)}
    (hidxs : idxs.flatten.Perm (List.range n)) (hn : n < 2 ^ 32) {nextId nextDirectoryId : Nat}
    (hdir : nextDirectoryId + descents 0 (idxs.map List.length) < 2 ^ 32)
    {found : List (List (List Entry))} (hne : found ≠ [])
    (hfound : ∀ r entries, found[r]? = some entries →
      List.Forall₂ (Lists (P r) n) entries idxs) :
    ∃ s, loadReplicas align found ⟨[], 0, nextId, nextDirectoryId⟩ = some s ∧ Loading P n s ∧
      s.loaded.length = found.length ∧ s.nextId = n ∧
      s.nextDirectoryId = nextDirectoryId + descents 0 (idxs.map List.length) := by
  have hlen : idxs.flatten.length = n := hidxs.length_eq.trans length_range
  obtain ⟨listing, rest, rfl⟩ := exists_cons_of_ne_nil hne
  have hfirstDir : true = true →
      nextDirectoryId + descents 0 (idxs.map List.length) < 2 ^ 32 := fun _ => hdir
  obtain ⟨p, is, hload, hperm, hfills, hid, hdirs⟩ := fills_nil.replica
    (hfound 0 listing rfl) hn (s := ⟨⟨[], 0⟩, 0, 0, nextDirectoryId⟩)
    (by rw [hlen]; exact (Nat.zero_add n).symm ▸ hn) hfirstDir
  have hcomplete := hfills.complete (hperm.trans hidxs)
  have hid : p.nextPartId = n := by
    rw [hid, hlen]
    exact Nat.zero_add n
  have hfirst : Loading P n ⟨[p.rep], if p.rep.nparts < p.nextPartId then 0 else 0, p.nextPartId,
      p.nextDirectoryId⟩ := by
    refine ⟨Nat.one_pos, ite_self 0, fun r rep hr => ?_⟩
    cases r with
    | zero =>
      obtain rfl := Option.some.inj hr
      exact hcomplete
    | succ r => cases hr
  obtain ⟨s', hrest, hloading, hlength, hnextId, hnextDir⟩ := hfirst.replicas hidxs
    hn fun i entries hi => by
      rw [length_singleton, Nat.add_comm]
      exact hfound (i + 1) entries hi
  refine ⟨s', ?_, hloading, ?_, hnextId.trans hid, hnextDir.trans hdirs⟩
  · rw [loadReplicas]
    dsimp only
    rw [length_nil, beq_self_eq_true, hload]
    exact hrest
  · simp only [hlength, length_cons, length_nil]
    omega

theorem recreateAll_complete {P : Nat → Nat → List Char × Nat} {most : Loaded}
    (hmost : most.nparts = n) {replica : List Replica} {loaded : List Loaded}
    (hlength : loaded.length = replica.length)
    (hcomplete : ∀ r rep, loaded[r]? = some rep → Complete (P r) n rep) :
    ∃ replica', recreateAll most replica loaded = some replica' ∧
      replica'.length = replica.length ∧ ∀ r rep, replica'[r]? = some rep →
        rep.part.map (fun part => (part.path, part.filesize)) = (List.range n).map (P r) := by
  induction replica generalizing loaded P with
  | nil =>
    obtain rfl := length_eq_zero_iff.mp hlength
    exact ⟨[], rfl, rfl, fun _ _ h => by cases h⟩
  | cons rep replica ih =>
    obtain ⟨first, rest, rfl⟩ := exists_cons_of_length_eq_add_one hlength
    have hfirst := hcomplete 0 first rfl
    obtain ⟨replica', hrest, hlen, hparts⟩ := ih (P := fun r => P (r + 1))
      (Nat.succ.inj hlength) fun r rep hr => hcomplete (r + 1) rep hr
    have hcount : first.part.length = n := by
      have heq := congrArg List.length hfirst.part
      rw [length_map, length_map, length_range] at heq
      exact heq
    have hone : recreate rep most first = some { rep with part := first.part } := by
      rw [recreate, if_pos (hfirst.nparts.trans hmost.symm), hfirst.nparts, hcount,
        if_neg (Nat.lt_irrefl n), ← hcount, take_length]
    rw [recreateAll, hone, hrest]
    refine ⟨_, rfl, congrArg Nat.succ hlen, fun r rep' hr => ?_⟩
    cases r with
    | zero =>
      obtain rfl := Option.some.inj hr
      exact hfirst.part
    | succ r => exact hparts r rep' hr

end Pmdk.Poolset
