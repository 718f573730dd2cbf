import Pmdk.Lib.Replay
import Pmdk.Reorder.BinaryOutput
import Pmdk.Reorder.Engines

/-!
# Replaying the stores of a barrier

`ReplayingState.run` tries every generated sequence of the flushed stores on the files, shows the
files to the checker and reverts the stores, and at last makes all of the stores.
-/

namespace Pmdk.Reorder

open SavedValues List

variable {ν : Type}

/-- `OpsContext`, without the log. -/
structure Context (ν : Type) where
  reorderEngine : Engine
  testOnBarrier : Bool
  defaultEngine : Engine
  defaultBarrier : Bool
  files : List (BinaryFile ν)

def Context.init (engine : Engine) : Context ν where
  reorderEngine := engine
  testOnBarrier := engine.testOnBarrier
  defaultEngine := engine
  defaultBarrier := engine.testOnBarrier
  files := []

structure Collected where
  store : Store
  flushed : Bool

structure Replayed (ν : Type) where
  trial : Trial ν
  presented : List (Image ν)
  consistency : Bool

/-! ## The registered files -/

def RegisterFile.range (r : RegisterFile ν) : Range := ⟨r.address, r.address + r.size⟩

def mostRecent (regs : List (RegisterFile ν)) (x : Range) : Option (RegisterFile ν) :=
  regs.reverse.find? fun r => r.address ≤ x.base ∧ x.max ≤ r.address + r.size

variable {size : ν → Nat} {regs : List (RegisterFile ν)} {r : RegisterFile ν} {x : Range}

def RegisterFile.file (r : RegisterFile ν) : BinaryFile ν := ⟨r.name, r.address, r.address + r.size⟩

theorem regFile_foldlM (h : ∀ r ∈ regs, size r.name ≠ 0) (files : List (BinaryFile ν)) :
    regs.foldlM (regFile size) files = some (files ++ regs.map RegisterFile.file) := by
  induction regs generalizing files with
  | nil => rw [map_nil, append_nil]; rfl
  | cons r regs ih =>
    rw [forall_mem_cons] at h
    have hreg : regFile size files r = some (files ++ [r.file]) := if_neg h.1
    rw [foldlM_cons, hreg, Option.bind_eq_bind, Option.bind_some, ih h.2, map_cons, append_assoc]
    rfl

theorem suitable_map (s : Store) : suitable (regs.map RegisterFile.file) s =
    (regs.filter fun r => rangeCmp s.range r.range = 0).map RegisterFile.file :=
  filter_map

theorem mostRecent_eq_some (h : mostRecent regs x = some r) :
    r ∈ regs ∧ r.address ≤ x.base ∧ x.max ≤ r.address + r.size := by
  unfold mostRecent at h
  have hfind := find?_some h
  have hin := of_decide_eq_true hfind
  exact ⟨mem_reverse.mp (mem_of_find?_eq_some h), hin.1, hin.2⟩

theorem mostRecent_mem_filter (h : mostRecent regs x = some r) (hx : x.base < x.max) :
    r ∈ regs.filter fun r => rangeCmp x r.range = 0 := by
  obtain ⟨hmem, hbase, hmax⟩ := mostRecent_eq_some h
  refine mem_filter.mpr ⟨hmem, decide_eq_true (rangeCmp_eq_zero_iff.mpr ?_)⟩
  unfold RegisterFile.range
  exact ⟨by dsimp only; omega, by dsimp only; omega⟩

theorem Store.range_lt (s : Store) : s.range.base < s.range.max :=
  Nat.lt_add_of_pos_right s.length_pos

/-! ## The run -/

section Run

variable [DecidableEq ν] (size : ν → Nat) (checker : ν → Image ν → Bool)

def trySequence (files : List (BinaryFile ν)) (r : Replayed ν) (seq : List (Store × Nat)) :
    Option (Replayed ν) := do
  let done ← seq.foldlM (doStore size files) r.trial
  let reverted ← seq.reverse.foldlM (doRevert size files) done
  some ⟨reverted, r.presented ++ [done.1], r.consistency && checkConsistency checker files done.1⟩

def flushedStores (opsList : List Collected) : List Store :=
  (opsList.filter (·.flushed)).map (·.store)

def tryStores (ctx : Context ν) (choice : Sampling) (flushed : List (Store × Nat))
    (start : Replayed ν) : Option (Replayed ν) :=
  if ctx.testOnBarrier then
    (ctx.reorderEngine.generateSequence choice flushed).foldlM
      (trySequence size checker ctx.files) start
  else some start

def ReplayingState.run (ctx : Context ν) (choice : Sampling) (opsList : List Collected)
    (image : Image ν) : Option (Replayed ν) := do
  let flushed := (flushedStores opsList).zipIdx
  let tried ← tryStores size checker ctx choice flushed ⟨(image, fun _ => none), [], true⟩
  -- write all flushed stores
  let trial ← flushed.foldlM (doStore size ctx.files) tried.trial
  some { tried with trial }

end Run

/-! ## Where the stores belong -/

variable [DecidableEq ν]

def access (regs : List (RegisterFile ν)) : Access (Store × Nat) (Image ν) (List UInt8) where
  get op image :=
    match mostRecent regs op.1.range with
    | none => []
    | some r => image.read r.name (r.offset + (op.1.address - r.address)) op.1.newValue.length
  set op v image :=
    match mostRecent regs op.1.range with
    | none => image
    | some r => image.write r.name (r.offset + (op.1.address - r.address)) v
  new op := op.1.newValue
  set_get op image := by
    cases mostRecent regs op.1.range with
    | none => rfl
    | some r => exact Image.write_old

def applied (regs : List (RegisterFile ν)) (image : Image ν) (seq : List (Store × Nat)) : Image ν :=
  seq.foldl (access regs).put image

def Located (size : ν → Nat) (regs : List (RegisterFile ν)) (x : Range) : Prop :=
  ∃ r, mostRecent regs x = some r ∧ r.offset + (x.max - r.address) ≤ size r.name

/-- The range overlaps with one mapping only, which begins at the beginning of its file, and the
page of the file in which the range begins is in the file. -/
def Clean (size : ν → Nat) (regs : List (RegisterFile ν)) (x : Range) : Prop :=
  ∃ r, regs.filter (fun r => rangeCmp x r.range = 0) = [r] ∧ r.offset = 0 ∧
    (x.base - r.address) / 4096 * 4096 + 4096 ≤ size r.name

/-- The replay with the files registered in order shows every sequence on the image before the
batch, and leaves that image with all flushed stores. -/
def Exact (size : ν → Nat) (checker : ν → Image ν → Bool) (regs : List (RegisterFile ν))
    (engine : Engine) (choice : Sampling) (opsList : List Collected) (image : Image ν) : Prop :=
  ∃ files out, regs.foldlM (regFile size) [] = some files ∧
    ReplayingState.run size checker { (Context.init engine : Context ν) with files } choice opsList
      image = some out ∧
    out.presented = (if engine.testOnBarrier then
      (engine.generateSequence choice (flushedStores opsList).zipIdx).map (applied regs image)
    else []) ∧
    out.trial.1 = applied regs image (flushedStores opsList).zipIdx

variable {checker : ν → Image ν → Bool} {op : Store × Nat}
  {ops seq : List (Store × Nat)} {st st' : Trial ν} {image : Image ν}

/-! ## Clean stores are made and undone -/

omit [DecidableEq ν] in
theorem Clean.suitable (hc : Clean size regs op.1.range) (hl : Located size regs op.1.range) :
    ∃ r, mostRecent regs op.1.range = some r ∧ r.offset = 0 ∧
      suitable (regs.map RegisterFile.file) op.1 = [r.file] ∧ r.file.Fits size op.1 := by
  obtain ⟨r, hfilter, hoffset, hpage⟩ := hc
  obtain ⟨r', hrecent, hfile⟩ := hl
  have hmem := mostRecent_mem_filter hrecent op.1.range_lt
  rw [hfilter, mem_singleton] at hmem
  subst hmem
  obtain ⟨-, hbase, -⟩ := mostRecent_eq_some hrecent
  refine ⟨r', hrecent, hoffset, ?_, hbase, ?_, hpage⟩
  · rw [suitable_map, hfilter, map_singleton]
  · unfold BinaryFile.position RegisterFile.file
    unfold Store.range at hfile hbase
    dsimp only at hfile hbase ⊢
    omega

theorem access_get (h : mostRecent regs op.1.range = some r) (hoffset : r.offset = 0) :
    (access regs).get op image = image.read r.name (r.file.position op.1) op.1.newValue.length := by
  simp only [access, h, hoffset, Nat.zero_add]
  rfl

theorem access_set {v : List UInt8} (h : mostRecent regs op.1.range = some r)
    (hoffset : r.offset = 0) :
    (access regs).set op v image = image.write r.name (r.file.position op.1) v := by
  simp only [access, h, hoffset, Nat.zero_add]
  rfl

theorem Clean.doStore_eq (hc : Clean size regs op.1.range) (hl : Located size regs op.1.range) :
    doStore size (regs.map RegisterFile.file) st op =
      some (apply (access regs) Prod.snd st op) := by
  obtain ⟨r, hrecent, hoffset, hsuitable, hfits⟩ := hc.suitable hl
  rw [doStore, hsuitable, if_neg (cons_ne_nil _ _), foldlM_cons, hfits.doStore_eq, apply,
    Access.put, access_get hrecent hoffset, access_set hrecent hoffset]
  rfl

theorem Clean.doRevert_eq (hc : Clean size regs op.1.range) (hl : Located size regs op.1.range)
    {v : List UInt8} (hv : st.2 op.2 = some v) (hlen : v.length = op.1.newValue.length) :
    doRevert size (regs.map RegisterFile.file) st op =
      revert (access regs) Prod.snd st op := by
  obtain ⟨r, hrecent, hoffset, hsuitable, hfits⟩ := hc.suitable hl
  rw [doRevert, hsuitable, if_neg (cons_ne_nil _ _), foldlM_cons,
    hfits.doRevert_eq hv hlen, revert, hv, Option.map_some, access_set hrecent hoffset]
  rfl

theorem Clean.length_get (hc : Clean size regs op.1.range) (hl : Located size regs op.1.range) :
    ((access regs).get op image).length = op.1.newValue.length := by
  obtain ⟨r, hrecent, hoffset, -, -⟩ := hc.suitable hl
  rw [access_get hrecent hoffset, Image.length_read]

variable (hclean : ∀ op ∈ ops, Clean size regs op.1.range ∧ Located size regs op.1.range)

include hclean

theorem doStores_eq (st : Trial ν) : ops.foldlM (doStore size (regs.map RegisterFile.file)) st =
    some (ops.foldl (apply (access regs) Prod.snd) st) := by
  induction ops generalizing st with
  | nil => rfl
  | cons op ops ih =>
    rw [forall_mem_cons] at hclean
    rw [foldlM_cons, hclean.1.1.doStore_eq hclean.1.2, Option.bind_eq_bind,
      Option.bind_some, ih hclean.2, foldl_cons]

variable (st) in
theorem doReverts_eq (hsaved : ∀ op ∈ ops, ∃ image, st.2 op.2 = some ((access regs).get op image)) :
    ops.foldlM (doRevert size (regs.map RegisterFile.file)) st =
      ops.foldlM (revert (access regs) Prod.snd) st := by
  induction ops generalizing st with
  | nil => rfl
  | cons op ops ih =>
    rw [forall_mem_cons] at hclean hsaved
    obtain ⟨image, hv⟩ := hsaved.1
    rw [foldlM_cons, foldlM_cons,
      hclean.1.1.doRevert_eq hclean.1.2 hv (hclean.1.1.length_get hclean.1.2), revert, hv,
      Option.map_some]
    exact ih _ hclean.2 hsaved.2

variable (checker) in
/-- A sequence without repetition is shown to the checker and undone. -/
theorem trySequence_eq (hnodup : (ops.map Prod.snd).Nodup) (t : Replayed ν) :
    ∃ t', trySequence size checker (regs.map RegisterFile.file) t ops = some t' ∧
      t'.trial.1 = t.trial.1 ∧ t'.presented = t.presented ++ [applied regs t.trial.1 ops] := by
  have hreverse : ∀ op ∈ ops.reverse, Clean size regs op.1.range ∧ Located size regs op.1.range :=
    fun op hop => hclean op (mem_reverse.mp hop)
  have hreverts := doReverts_eq (ops.foldl (apply (access regs) Prod.snd) t.trial) hreverse
    fun op hop => exists_foldl_apply_slot hnodup (mem_reverse.mp hop)
  rw [trySequence, doStores_eq hclean, Option.bind_eq_bind, Option.bind_some, hreverts,
    revertAll_applyAll hnodup, Option.bind_some, foldl_apply_fst]
  exact ⟨_, rfl, rfl, rfl⟩

omit hclean

theorem trySequences_eq {seqs : List (List (Store × Nat))}
    (hclean : ∀ op ∈ ops, Clean size regs op.1.range ∧ Located size regs op.1.range)
    (hnodup : (ops.map Prod.snd).Nodup) (hsub : ∀ seq ∈ seqs, seq.Subperm ops) (t : Replayed ν) :
    ∃ t', seqs.foldlM (trySequence size checker (regs.map RegisterFile.file)) t = some t' ∧
      t'.trial.1 = t.trial.1 ∧ t'.presented = t.presented ++ seqs.map (applied regs t.trial.1) := by
  induction seqs generalizing t with
  | nil => exact ⟨t, rfl, rfl, (append_nil _).symm⟩
  | cons seq seqs ih =>
    rw [forall_mem_cons] at hsub
    obtain ⟨l, hperm, hsublist⟩ := hsub.1
    have hseq : (seq.map Prod.snd).Nodup :=
      (hperm.map Prod.snd).nodup_iff.mp ((hsublist.map Prod.snd).nodup hnodup)
    obtain ⟨u, hu, himage, hpresented⟩ := trySequence_eq checker
      (fun op hop => hclean op (hsub.1.subset hop)) hseq t
    obtain ⟨t', ht', himage', hpresented'⟩ := ih hsub.2 u
    refine ⟨t', ?_, himage'.trans himage, ?_⟩
    · rw [foldlM_cons, hu, Option.bind_eq_bind, Option.bind_some, ht']
    · rw [hpresented', hpresented, himage, append_assoc, map_cons]
      rfl

theorem nodup_map_snd_zipIdx {α : Type} (l : List α) : (l.zipIdx.map Prod.snd).Nodup := by
  rw [zipIdx_map_snd]
  exact List.nodup_range'

variable (checker) in
/-- Clean stores are replayed exactly, whatever the engine, the checker and its choices. -/
theorem replay_exact (ctx : Context ν) (choice : Sampling)
    (opsList : List Collected) (image : Image ν) (hfiles : ctx.files = regs.map RegisterFile.file)
    (hclean : ∀ s ∈ flushedStores opsList, Clean size regs s.range ∧ Located size regs s.range) :
    ∃ out, ReplayingState.run size checker ctx choice opsList image = some out ∧
      out.presented = (if ctx.testOnBarrier then
        (ctx.reorderEngine.generateSequence choice (flushedStores opsList).zipIdx).map
          (applied regs image)
      else []) ∧
      out.trial.1 = applied regs image (flushedStores opsList).zipIdx := by
  have hops : ∀ op ∈ (flushedStores opsList).zipIdx,
      Clean size regs op.1.range ∧ Located size regs op.1.range :=
    fun op hop => hclean op.1 (fst_mem_of_mem_zipIdx hop)
  obtain ⟨tried, htried, himage, hpresented⟩ : ∃ tried : Replayed ν,
      tryStores size checker ctx choice (flushedStores opsList).zipIdx
        ⟨(image, fun _ => none), [], true⟩ = some tried ∧ tried.trial.1 = image ∧
      tried.presented = if ctx.testOnBarrier then
        (ctx.reorderEngine.generateSequence choice (flushedStores opsList).zipIdx).map
          (applied regs image)
      else [] := by
    unfold tryStores
    split
    · rw [hfiles]
      exact trySequences_eq hops (nodup_map_snd_zipIdx _)
        (fun seq hseq => ctx.reorderEngine.generateSequence_subperm choice hseq) _
    · exact ⟨_, rfl, rfl, rfl⟩
  rw [ReplayingState.run, htried, Option.bind_eq_bind, Option.bind_some, hfiles, doStores_eq hops]
  refine ⟨_, rfl, hpresented, ?_⟩
  rw [applied, foldl_apply_fst, himage]

/-! ## The verdict -/

theorem consistency_eq {files : List (BinaryFile ν)} {seqs : List (List (Store × Nat))}
    {t t' : Replayed ν} (h : seqs.foldlM (trySequence size checker files) t = some t')
    (ht : t.consistency = t.presented.all (checkConsistency checker files)) :
    t'.consistency = t'.presented.all (checkConsistency checker files) := by
  induction seqs generalizing t with
  | nil => exact Option.some.inj h ▸ ht
  | cons seq seqs ih =>
    obtain ⟨u, hu, h⟩ := Option.bind_eq_some_iff.mp h
    obtain ⟨done, -, hu⟩ := Option.bind_eq_some_iff.mp hu
    obtain ⟨reverted, -, hu⟩ := Option.bind_eq_some_iff.mp hu
    refine ih h ?_
    rw [← Option.some.inj hu, all_append, ← ht, all_cons, all_nil, Bool.and_true]

/-- With the full engine, the replay is consistent if and only if the checker accepts what every
part of the flushed stores leaves behind, in every order. -/
theorem full_consistency_iff (checker : ν → Image ν → Bool) (choice : Sampling)
    (opsList : List Collected) (image : Image ν) (hfiles : ∀ r ∈ regs, size r.name ≠ 0)
    (hclean : ∀ s ∈ flushedStores opsList, Clean size regs s.range ∧ Located size regs s.range) :
    ∃ files out, regs.foldlM (regFile size) [] = some files ∧
      ReplayingState.run size checker { (Context.init .full : Context ν) with files } choice opsList
        image = some out ∧
      (out.consistency = true ↔ ∀ seq, seq.Subperm (flushedStores opsList).zipIdx →
        checkConsistency checker files (applied regs image seq) = true) := by
  obtain ⟨out, hrun, hpresented, -⟩ := replay_exact checker
    { (Context.init .full : Context ν) with files := regs.map RegisterFile.file } choice opsList
    image rfl hclean
  refine ⟨_, out, regFile_foldlM hfiles [], hrun, ?_⟩
  obtain ⟨tried, htried, hrun⟩ := Option.bind_eq_some_iff.mp hrun
  obtain ⟨trial, -, hrun⟩ := Option.bind_eq_some_iff.mp hrun
  obtain rfl := Option.some.inj hrun
  have htested : tried.presented = (Engine.full.generateSequence choice
      (flushedStores opsList).zipIdx).map (applied regs image) := hpresented
  dsimp only
  rw [consistency_eq htried rfl, htested]
  simp [Engine.mem_full_iff]

/-! ## Other stores are not -/

def writeFiles (l : List (BinaryFile ν)) (s : Store) (v : List UInt8) (image : Image ν) : Image ν :=
  l.foldl (fun image bf => image.write bf.fileName (bf.position s) v) image

variable {l : List (BinaryFile ν)} {v : List UInt8} {s : Store}

theorem doStore_files (hover : ∀ bf ∈ l, rangeCmp op.1.range bf.range = 0)
    (h : l.foldlM (fun st bf => bf.doStore size st op) st = some st') :
    (∀ bf ∈ l, bf.Fits size op.1) ∧ st'.1 = writeFiles l op.1 op.1.newValue st.1 := by
  induction l generalizing st with
  | nil =>
    obtain rfl := Option.some_inj.mp h
    exact ⟨fun bf hbf => absurd hbf not_mem_nil, rfl⟩
  | cons bf l ih =>
    rw [forall_mem_cons] at hover
    obtain ⟨u, hu, h⟩ := Option.bind_eq_some_iff.mp h
    replace hu : bf.doStore size st op = some u := hu
    have hfits := BinaryFile.fits_of_doStore hover.1 hu
    obtain ⟨hall, himage⟩ := ih hover.2 h
    rw [hfits.doStore_eq, Option.some_inj] at hu
    refine ⟨forall_mem_cons.mpr ⟨hfits, hall⟩, ?_⟩
    rw [himage, ← hu]
    rfl

theorem doRevert_files (hfits : ∀ bf ∈ l, bf.Fits size op.1) (hv : st.2 op.2 = some v)
    (hlen : v.length = op.1.newValue.length) :
    l.foldlM (fun st bf => bf.doRevert size st op) st =
      some (writeFiles l op.1 v st.1, st.2) := by
  induction l generalizing st with
  | nil => rfl
  | cons bf l ih =>
    rw [forall_mem_cons] at hfits
    rw [foldlM_cons, hfits.1.doRevert_eq hv hlen, Option.bind_eq_bind, Option.bind_some]
    exact ih hfits.2 hv

/-- If all files are at one place and the new value is there already, it is saved as the old one. -/
theorem doStore_saves_new {f : ν} {pos : Nat} (hne : l ≠ [])
    (hplace : ∀ bf ∈ l, bf.fileName = f ∧ bf.position op.1 = pos)
    (hfits : ∀ bf ∈ l, bf.Fits size op.1)
    (hread : st.1.read f pos op.1.newValue.length = op.1.newValue)
    (h : l.foldlM (fun st bf => bf.doStore size st op) st = some st') :
    st'.2 op.2 = some op.1.newValue := by
  induction l generalizing st with
  | nil => exact absurd rfl hne
  | cons bf l ih =>
    rw [forall_mem_cons] at hplace hfits
    obtain ⟨u, hu, h⟩ := Option.bind_eq_some_iff.mp h
    replace hu : bf.doStore size st op = some u := hu
    rw [hfits.1.doStore_eq, Option.some_inj, hplace.1.1, hplace.1.2, hread] at hu
    cases l with
    | nil =>
      obtain rfl := Option.some_inj.mp h
      rw [← hu]
      exact Function.update_self _ _ _
    | cons bf' l =>
      refine ih (cons_ne_nil _ _) hplace.2 hfits.2 ?_ h
      rw [← hu]
      exact Image.read_write

theorem writeFiles_ones {n : Nat} {g : ν} {b : Nat} :
    writeFiles l s (List.replicate n 1) image g b =
      if ∃ bf ∈ l, g = bf.fileName ∧ bf.position s ≤ b ∧ b < bf.position s + n then 1
      else image g b := by
  induction l generalizing image with
  | nil => exact (if_neg (by rintro ⟨bf, hbf, -⟩; exact not_mem_nil hbf)).symm
  | cons bf l ih =>
    have hstep : writeFiles (bf :: l) s (List.replicate n 1) image =
        writeFiles l s (List.replicate n 1)
          (image.write bf.fileName (bf.position s) (List.replicate n 1)) := rfl
    rw [hstep, ih, Image.write, length_replicate]
    simp only [exists_mem_cons_iff]
    by_cases hrest : ∃ bf ∈ l, g = bf.fileName ∧ bf.position s ≤ b ∧ b < bf.position s + n
    · rw [if_pos hrest, if_pos (.inr hrest)]
    · rw [if_neg hrest]
      by_cases hin : g = bf.fileName ∧ bf.position s ≤ b ∧ b < bf.position s + n
      · have hk : b - bf.position s < (List.replicate n (1 : UInt8)).length := by
          rw [length_replicate]
          omega
        rw [if_pos hin, if_pos (.inl hin), getD_eq_getElem _ _ hk, getElem_replicate]
      · rw [if_neg hin, if_neg (not_or.mpr ⟨hin, hrest⟩)]

def ones (x : Range) (hx : x.base < x.max) : Store where
  address := x.base
  newValue := List.replicate (x.max - x.base) 1
  newValue_ne h := by
    have := congrArg List.length h
    rw [length_replicate, length_nil] at this
    omega

theorem ones_range (hx : x.base < x.max) : (ones x hx).range = x := by
  have hmax : x.base + (x.max - x.base) = x.max := by omega
  unfold ones Store.range
  dsimp only
  rw [length_replicate, hmax]

def Sampling.last : Sampling where
  positions n k := ((List.range n).take k).reverse
  length n k h := by rw [length_reverse, length_take, length_range, Nat.min_eq_left h]
  nodup n k := nodup_reverse.mpr (nodup_range.sublist (take_sublist k _))
  lt _ _ _ hi := mem_range.mp (mem_of_mem_take (mem_reverse.mp hi))

theorem trySequence_eq_some {t t' : Replayed ν}
    (h : trySequence size checker (regs.map RegisterFile.file) t seq = some t') :
    ∃ done, seq.foldlM (doStore size (regs.map RegisterFile.file)) t.trial = some done ∧
      seq.reverse.foldlM (doRevert size (regs.map RegisterFile.file)) done = some t'.trial ∧
      t'.presented = t.presented ++ [done.1] := by
  obtain ⟨done, hdone, h⟩ := Option.bind_eq_some_iff.mp h
  obtain ⟨reverted, hreverted, h⟩ := Option.bind_eq_some_iff.mp h
  obtain rfl := Option.some_inj.mp h
  exact ⟨done, hdone, hreverted, rfl⟩

theorem presented_last {out : Replayed ν}
    (h : ReplayingState.run size checker
      ⟨.randomPartial 2, true, .randomPartial 2, true, regs.map RegisterFile.file⟩ .last [⟨s, true⟩]
      image = some out) :
    ∃ done reverted, doStore size (regs.map RegisterFile.file) (image, fun _ => none) (s, 0) =
        some done ∧
      doRevert size (regs.map RegisterFile.file) done (s, 0) = some reverted ∧
      out.presented = [done.1, reverted.1] := by
  obtain ⟨tried, htried, h⟩ := Option.bind_eq_some_iff.mp h
  obtain ⟨trial, -, h⟩ := Option.bind_eq_some_iff.mp h
  obtain rfl := Option.some_inj.mp h
  change ([[(s, 0)], []] : List (List (Store × Nat))).foldlM _ _ = _ at htried
  rw [foldlM_cons, Option.bind_eq_bind] at htried
  obtain ⟨first, hfirst, htried⟩ := Option.bind_eq_some_iff.mp htried
  rw [foldlM_cons, Option.bind_eq_bind] at htried
  obtain ⟨second, hsecond, htried⟩ := Option.bind_eq_some_iff.mp htried
  obtain rfl := Option.some_inj.mp htried
  obtain ⟨done, hdone, hreverted, hpresented⟩ := trySequence_eq_some hfirst
  obtain ⟨done', hdone', -, hpresented'⟩ := trySequence_eq_some hsecond
  obtain ⟨done₁, hdone₁, hnil⟩ := Option.bind_eq_some_iff.mp hdone
  obtain ⟨reverted₁, hreverted₁, hnil'⟩ := Option.bind_eq_some_iff.mp hreverted
  obtain rfl := Option.some_inj.mp hnil
  obtain heq := Option.some_inj.mp hnil'
  obtain rfl := Option.some_inj.mp hdone'
  refine ⟨_, _, hdone₁, hreverted₁, ?_⟩
  rw [hpresented', hpresented, heq]
  rfl

theorem ite_eq_some {α : Type} {c : Prop} [Decidable c] {o : Option α} {a : α}
    (h : (if c then none else o) = some a) : ¬c ∧ o = some a := by
  split at h
  · exact absurd h nofun
  · exact ⟨‹_›, h⟩

/-- Where ones and zeros show that a store is made in one place, the place is the right one. -/
theorem place_of_ones {r : RegisterFile ν} {pos : Nat} (hx : x.base < x.max)
    (h : writeFiles l (ones x hx) (List.replicate (x.max - x.base) 1) (fun _ _ => 0) =
      Image.write (fun _ _ => 0) r.name pos (List.replicate (x.max - x.base) 1)) :
    ∀ bf ∈ l, bf.fileName = r.name ∧ bf.position (ones x hx) = pos := by
  intro bf hbf
  have hin : ∀ b, bf.position (ones x hx) ≤ b → b < bf.position (ones x hx) + (x.max - x.base) →
      bf.fileName = r.name ∧ pos ≤ b ∧ b < pos + (x.max - x.base) := by
    intro b hle hlt
    have hbyte := congrFun (congrFun h bf.fileName) b
    rw [writeFiles_ones, if_pos ⟨bf, hbf, rfl, hle, hlt⟩, Image.write, length_replicate]
      at hbyte
    by_contra hnot
    rw [if_neg hnot] at hbyte
    exact absurd hbyte (by decide)
  have hfirst := hin _ (Nat.le_refl _) (by omega)
  have hlast := hin (bf.position (ones x hx) + (x.max - x.base) - 1) (by omega) (by omega)
  exact ⟨hfirst.1, by omega⟩

theorem applied_ones (hx : x.base < x.max) (h : mostRecent regs x = some r) :
    applied regs image [(ones x hx, 0)] = image.write r.name (r.offset + (x.base - r.address))
      (List.replicate (x.max - x.base) 1) := by
  have hrange : mostRecent regs (ones x hx).range = some r := by rw [ones_range, h]
  simp only [applied, foldl_cons, foldl_nil, Access.put, access, hrange]
  rfl

/-- A range is clean if a store of ones is replayed exactly on files of zeros. -/
theorem clean_of_exact (hfiles : ∀ r ∈ regs, size r.name ≠ 0) (hx : x.base < x.max)
    (hl : Located size regs x) (h : Exact size checker regs (.randomPartial 2) .last
      [⟨ones x hx, true⟩] (fun _ _ => 0)) : Clean size regs x := by
  obtain ⟨files, out, hreg, hrun, hpresented, -⟩ := h
  obtain ⟨r, hrecent, -⟩ := hl
  rw [regFile_foldlM hfiles, Option.some_inj, nil_append] at hreg
  subst hreg
  obtain ⟨done, reverted, hdone, hreverted, hshown⟩ := presented_last hrun
  have hboth : [done.1, reverted.1] = [applied regs (fun _ _ => 0) [(ones x hx, 0)],
      fun _ _ => 0] :=
    hshown.symm.trans hpresented
  obtain ⟨himage, hboth⟩ := cons_eq_cons.mp hboth
  obtain ⟨hundone, -⟩ := cons_eq_cons.mp hboth
  obtain ⟨hne, hdone⟩ := ite_eq_some hdone
  obtain ⟨-, hreverted⟩ := ite_eq_some hreverted
  have hover : ∀ bf ∈ suitable (regs.map RegisterFile.file) (ones x hx),
      rangeCmp (ones x hx).range bf.range = 0 :=
    fun bf hbf => of_decide_eq_true (mem_filter.mp hbf).2
  obtain ⟨hfits, hwritten⟩ := doStore_files hover hdone
  rw [himage, applied_ones hx hrecent] at hwritten
  have hplace := place_of_ones hx hwritten.symm
  have hfilter := mostRecent_mem_filter hrecent hx
  rw [suitable_map, ones_range] at hplace hfits hdone hreverted
  obtain ⟨-, hposition⟩ := hplace r.file (mem_map_of_mem hfilter)
  have hpage := (hfits r.file (mem_map_of_mem hfilter)).page
  have hbase : r.file.position (ones x hx) = x.base - r.address := rfl
  refine ⟨r, ?_, by omega, hpage⟩
  obtain ⟨r₁, rest, hlist⟩ : ∃ r₁ rest, regs.filter (fun r => rangeCmp x r.range = 0) =
      r₁ :: rest :=
    exists_cons_of_ne_nil (ne_nil_of_mem hfilter)
  rw [hlist] at hfilter hplace hfits hdone hreverted ⊢
  cases rest with
  | nil =>
    obtain rfl := mem_singleton.mp hfilter
    rfl
  | cons r₂ rest =>
    -- the second mapping saves the ones of the first one, and they are not undone
    exfalso
    rw [map_cons] at hplace hfits hdone hreverted
    have hplace' := forall_mem_cons.mp hplace
    have hfits' := forall_mem_cons.mp hfits
    obtain ⟨u, hu, hrest⟩ := Option.bind_eq_some_iff.mp hdone
    replace hu : r₁.file.doStore size (fun _ _ => 0, fun _ => none) (ones x hx, 0) = some u := hu
    rw [hfits'.1.doStore_eq, Option.some_inj, hplace'.1.1, hplace'.1.2] at hu
    have hsaved := doStore_saves_new (cons_ne_nil _ _) hplace'.2 hfits'.2
      (by rw [← hu]; exact Image.read_write) hrest
    rw [doRevert_files hfits hsaved rfl, Option.some_inj] at hreverted
    have hbyte := congrFun (congrFun hundone r.name) (r.offset + (x.base - r.address))
    have hones : (ones x hx).newValue = List.replicate (x.max - x.base) 1 := rfl
    rw [← hreverted, hones] at hbyte
    dsimp only at hbyte
    rw [writeFiles_ones, if_pos ⟨_, mem_cons_self, hplace'.1.1.symm,
      by rw [hplace'.1.2], by rw [hplace'.1.2]; omega⟩] at hbyte
    exact absurd hbyte (by decide)

/-- The stores of some ranges are always replayed exactly if and only if all the ranges are clean.
-/
theorem replay_exact_iff (size : ν → Nat) (regs : List (RegisterFile ν)) (ranges : Set Range)
    (hfiles : ∀ r ∈ regs, size r.name ≠ 0)
    (hranges : ∀ x ∈ ranges, x.base < x.max ∧ Located size regs x) :
    (∀ checker engine choice opsList image, (∀ s ∈ flushedStores opsList, s.range ∈ ranges) →
      Exact size checker regs engine choice opsList image) ↔
    ∀ x ∈ ranges, Clean size regs x := by
  constructor
  · intro h x hx
    obtain ⟨hlt, hl⟩ := hranges x hx
    refine clean_of_exact hfiles hlt hl (h (fun _ _ => true) _ _ _ _ ?_)
    intro s hs
    obtain rfl := List.mem_singleton.mp hs
    exact (ones_range hlt).symm ▸ hx
  · intro h checker engine choice opsList image hin
    have hclean : ∀ s ∈ flushedStores opsList, Clean size regs s.range ∧
        Located size regs s.range :=
      fun s hs => ⟨h _ (hin s hs), (hranges _ (hin s hs)).2⟩
    obtain ⟨out, hrun, hpresented, himage⟩ := replay_exact checker
      { (Context.init engine : Context ν) with files := regs.map RegisterFile.file } choice opsList
      image rfl hclean
    exact ⟨_, out, regFile_foldlM hfiles [], hrun, hpresented, himage⟩

def page : RegisterFile Unit := ⟨(), 8192, 4096, 0⟩

def store (address : Nat) (value : UInt8) : Store := ⟨address, [value], cons_ne_nil _ _⟩

def twoStores : List Collected := [⟨store 8192 1, true⟩, ⟨store 8193 1, true⟩]

/-- With one mapping of the page they are replayed exactly. -/
theorem replay_exact_page :
    Exact (fun _ => 4096) (fun _ _ => true) [page] .full .first twoStores (fun _ _ => 0) := by
  refine (replay_exact_iff (fun _ => 4096) [page] {x | x = ⟨8192, 8193⟩ ∨ x = ⟨8193, 8194⟩}
    (by simp) ?_).mpr ?_ _ _ _ _ _ ?_
  · rintro x (rfl | rfl)
    · exact ⟨by decide, page, rfl, by decide⟩
    · exact ⟨by decide, page, rfl, by decide⟩
  · rintro x (rfl | rfl)
    · exact ⟨page, rfl, rfl, by decide⟩
    · exact ⟨page, rfl, rfl, by decide⟩
  · intro s hs
    rcases List.mem_cons.mp hs with rfl | hs
    · exact .inl rfl
    · obtain rfl := List.mem_singleton.mp hs
      exact .inr rfl

/-- The second store may be made without the first one. -/
theorem full_consistency_page : ∃ files out, [page].foldlM (regFile fun _ => 4096) [] = some files ∧
    ReplayingState.run (fun _ => 4096) (fun _ image => image () 1 ≤ image () 0)
      { (Context.init .full : Context Unit) with files } .first twoStores (fun _ _ => 0) =
        some out ∧
    out.consistency = false := by
  have hclean : ∀ s ∈ flushedStores twoStores,
      Clean (fun _ => 4096) [page] s.range ∧ Located (fun _ => 4096) [page] s.range := by
    intro s hs
    rcases List.mem_pair.mp hs with rfl | rfl <;>
      exact ⟨⟨page, rfl, rfl, by decide⟩, page, rfl, by decide⟩
  obtain ⟨files, out, hfiles, hrun, hiff⟩ := full_consistency_iff
    (fun _ image => image () 1 ≤ image () 0) .first twoStores (fun _ _ => 0) (by simp) hclean
  refine ⟨files, out, hfiles, hrun, Bool.eq_false_iff.mpr fun h => ?_⟩
  have hsecond := hiff.mp h [(store 8193 1, 1)] (sublist_cons_self _ _).subperm
  obtain rfl := Option.some.inj hfiles
  exact absurd hsecond (by decide)

/-- The page is registered twice at the same address. After the first of two stores was tried alone,
it is not undone when the second one is tried alone. -/
theorem not_exact_registered_twice :
    Located (fun _ => 4096) [page, page] (store 8192 1).range ∧
      Located (fun _ => 4096) [page, page] (store 8193 1).range ∧
      ¬Exact (fun _ => 4096) (fun _ _ => true) [page, page] .full .first twoStores
        (fun _ _ => 0) := by
  refine ⟨⟨page, rfl, by decide⟩, ⟨page, rfl, by decide⟩, ?_⟩
  rintro ⟨files, out, hreg, hrun, hpresented, -⟩
  obtain rfl := Option.some_inj.mp hreg
  have hthird : out.presented.map (fun image => image () 0) = [0, 1, 1, 1, 1] := by
    have := congrArg (Option.map fun out => out.presented.map fun image => image () 0) hrun
    exact (Option.some_inj.mp this).symm
  rw [hpresented] at hthird
  exact absurd hthird (by decide)

end Pmdk.Reorder
