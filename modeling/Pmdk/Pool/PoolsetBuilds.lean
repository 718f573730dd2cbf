import Pmdk.Pool.PoolsetWritten

/-!
# A poolset file is parsed into the set that is written

The lines that are accepted are steps of the parser, and the parts of the local replicas are the
parts that are written between the lines that say REPLICA. The sizes of the replicas are computed
modulo `2 ^ 64`.
-/

namespace Pmdk.Poolset

open Sync (alignDown poolHdrSize)
open List

inductive Run (env : ParseEnv) : Parser → List Line → Parser → Prop
  | nil (p : Parser) : Run env p [] p
  | cons {p p₁ p₂ : Parser} {line : Line} {items : List Line} (h : Step env p line p₁)
      (hrest : Run env p₁ items p₂) : Run env p (line :: items) p₂

/-! ## Lines that are skipped -/

theorem chopAt_strchr (s : List Char) (ch : Char) :
    chopAt s (strchr s ch) = s.takeWhile (· != ch) := by
  rw [strchr]
  induction s with
  | nil => rfl
  | cons a s ih =>
    by_cases h : a = ch
    · simp [findIdx?_cons, h, chopAt]
    · rw [findIdx?_cons, if_neg (by simpa using h), takeWhile_cons_of_pos (by simpa using h), ← ih]
      cases s.findIdx? (· == ch) <;> rfl

theorem strchr_eq_zero {s : List Char} {ch : Char} (hs : s ≠ []) :
    strchr s ch = some 0 ↔ s.takeWhile (· != ch) = [] := by
  cases s with
  | nil => exact (hs rfl).elim
  | cons a s =>
    rw [strchr, findIdx?_cons]
    by_cases h : a = ch
    · simp [h]
    · simp [h]

theorem chop_eq {line : List Char} (hline : line ≠ []) :
    chop line = if content line = [] then none else some (content line) := by
  rw [chop]
  dsimp only
  rw [chopAt_strchr]
  by_cases hnl : strchr line '\n' = some 0
  · have hempty := (strchr_eq_zero hline).mp hnl
    rw [if_pos hnl, content, hempty, takeWhile_nil, if_pos rfl]
  · have hne : line.takeWhile (· != '\n') ≠ [] := fun h => hnl ((strchr_eq_zero hline).mpr h)
    rw [if_neg hnl, chopAt_strchr, ← content]
    by_cases hcomment : content line = []
    · rw [if_pos ((strchr_eq_zero hne).mpr hcomment), if_pos hcomment]
    · rw [if_neg fun h => hcomment ((strchr_eq_zero hne).mp h), if_neg hcomment]

theorem takes_ne_nil {text : List Char} {line : Line} (h : Takes text line) : text ≠ [] := by
  cases h with
  | option hne h => exact cons_ne_nil _ _
  | replica => exact cons_ne_nil _ _
  | remote hch h hdesc => exact cons_ne_nil _ _
  | part hoption hreplica h hpath hsize hpos =>
    rintro rfl
    rw [wordsOf, Words.words_nil] at h
    cases h

theorem contents_cons (line : List Char) (lines : List (List Char)) :
    contents (line :: lines) =
      if content line = [] then contents lines else content line :: contents lines := by
  rw [contents, map_cons]
  by_cases h : content line = []
  · rw [if_pos h, filter_cons_of_neg (by simpa using h), contents]
  · rw [if_neg h, filter_cons_of_pos (by simpa using h), contents]

theorem Step.replica_ne_nil {env : ParseEnv} {p p' : Parser} {line : Line} (h : Step env p line p')
    (hset : p.set.replica ≠ []) : p'.set.replica ≠ [] := by
  cases h with
  | option flags =>
    suffices ∀ set : PoolSet, (flags.foldl PoolSet.addOption set).replica = set.replica by
      rwa [this]
    intro set
    induction flags generalizing set with
    | nil => rfl
    | cons flag flags ih =>
      rw [foldl_cons, ih]
      cases flag <;> rfl
  | replica h => exact append_ne_nil_of_right_ne_nil _ (cons_ne_nil _ _)
  | remote rep => exact append_ne_nil_of_right_ne_nil _ (cons_ne_nil _ _)
  | part hset hlocal hlen => exact append_ne_nil_of_right_ne_nil _ (cons_ne_nil _ _)

/-- A file that is accepted is a run over what its lines are taken for. -/
theorem parseLoop_ok {env : ParseEnv} {nlines : Nat} {lines : List (List Char)} {p p' : Parser}
    (hset : p.set.replica ≠ []) (h : parseLoop env nlines lines p = .ok p') :
    ∃ items, List.Forall₂ Takes (contents lines) items ∧ Run env p items p' ∧ 1 ≤ p'.nparts := by
  induction lines generalizing nlines p with
  | nil =>
    rw [parseLoop] at h
    split at h
    next hparts =>
      cases h
      exact ⟨[], .nil, .nil _, hparts⟩
    · cases h
  | cons line lines ih =>
    rw [parseLoop] at h
    split at h
    next hchop =>
      have hline : line ≠ [] := by
        rintro rfl
        cases hchop
      rw [chop_eq hline] at hchop
      have hempty : content line = [] := by
        by_contra hne
        rw [if_neg hne] at hchop
        cases hchop
      rw [contents_cons, if_pos hempty]
      exact ih hset h
    next text hchop =>
      split at h
      · cases h
      next p₁ hparse =>
        obtain ⟨item, htakes, hstep⟩ := parseText_ok hset hparse
        obtain ⟨items, hitems, hrun, hparts⟩ := ih (hstep.replica_ne_nil hset) h
        have htext := takes_ne_nil htakes
        have hline : line ≠ [] := by
          rintro rfl
          exact htext (Option.some.inj hchop).symm
        rw [chop_eq hline] at hchop
        have hne : content line ≠ [] := by
          intro hempty
          rw [if_pos hempty] at hchop
          cases hchop
        rw [if_neg hne] at hchop
        obtain rfl := Option.some.inj hchop
        rw [contents_cons, if_neg hne]
        exact ⟨item :: items, .cons htakes hitems, .cons hstep hrun, hparts⟩

/-! ## The parts of the local replicas -/

@[simp] theorem partsWritten_nil : partsWritten [] = [[]] := rfl

@[simp] theorem partsWritten_replica (items : List Line) :
    partsWritten (.replica :: items) = [] :: partsWritten items := by
  simp [partsWritten, splitOnP_cons_eq_if_modifyHead, Line.isReplica]

theorem partsWritten_cons {line : Line} (h : line.isReplica = false) (items : List Line) :
    partsWritten (line :: items) = (partsWritten items).modifyHead (line.part?.toList ++ ·) := by
  rw [partsWritten, splitOnP_cons_eq_if_modifyHead, if_neg (by simp [h]), partsWritten]
  cases hsplit : items.splitOnP Line.isReplica with
  | nil => exact (splitOnP_ne_nil _ _ hsplit).elim
  | cons block blocks => cases hpart : line.part? <;> simp [hpart]

theorem partsWritten_ne_nil (items : List Line) : partsWritten items ≠ [] := by
  intro h
  exact splitOnP_ne_nil _ _ (map_eq_nil_iff.mp h)

def localsOf (replica : List Replica) : List (List (Nat × List Char)) :=
  (replica.filter (!·.remote)).map fun rep => rep.part.map Part.written

@[simp] theorem localsOf_append (l₁ l₂ : List Replica) :
    localsOf (l₁ ++ l₂) = localsOf l₁ ++ localsOf l₂ := by simp [localsOf]

theorem localsOf_local {rep : Replica} (h : rep.remote = false) :
    localsOf [rep] = [rep.part.map Part.written] := by simp [localsOf, h]

theorem localsOf_remote {rep : Replica} (h : rep.remote = true) : localsOf [rep] = [] := by
  simp [localsOf, h]

theorem foldl_addOption (flags : List OptionFlag) (set : PoolSet) :
    flags.foldl PoolSet.addOption set =
      { set with
        singlehdr := set.singlehdr || decide (OptionFlag.singlehdr ∈ flags)
        nohdrs := set.nohdrs || decide (OptionFlag.nohdrs ∈ flags) } := by
  induction flags generalizing set with
  | nil => simp
  | cons flag flags ih => cases flag <;> simp [ih, PoolSet.addOption]

variable {env : ParseEnv} {p p' : Parser} {line : Line} {items : List Line}
  {init : List (List (Nat × List Char))} {last : List (Nat × List Char)}

theorem Step.localParts (h : Step env p line p') (hp : p.set.localParts = init ++ [last]) :
    p'.set.localParts = if line.isReplica then init ++ [last, []]
      else init ++ [last ++ line.part?.toList] := by
  change localsOf p.set.replica = init ++ [last] at hp
  change localsOf p'.set.replica = _
  cases h with
  | option flags =>
    show localsOf (flags.foldl PoolSet.addOption p.set).replica = init ++ [last ++ []]
    rw [foldl_addOption, append_nil]
    exact hp
  | replica hparts =>
    show localsOf (p.set.replica ++ [zeroReplica]) = init ++ [last, []]
    rw [localsOf_append, hp, localsOf_local rfl, append_assoc]
    rfl
  | remote rep =>
    show localsOf (p.set.replica ++ [_]) = init ++ [last ++ []]
    rw [localsOf_append, hp, localsOf_remote rfl, append_nil, append_nil]
  | @part initRep rep size path hset hlocal hlen =>
    rw [hset, localsOf_append, localsOf_local hlocal] at hp
    obtain ⟨hinit, hlast⟩ := List.append_inj' hp rfl
    rw [← hinit, ← singleton_inj.mp hlast]
    show localsOf (initRep ++ [_]) = localsOf initRep ++ [_ ++ [(size, path)]]
    rw [localsOf_append]
    congr 1
    refine (localsOf_local (by exact hlocal)).trans ?_
    rw [map_append]
    rfl

theorem Run.localParts (h : Run env p items p') (hp : p.set.localParts = init ++ [last]) :
    p'.set.localParts = init ++ (partsWritten items).modifyHead (last ++ ·) := by
  induction h generalizing init last with
  | nil p => rw [hp, partsWritten_nil, modifyHead_cons, append_nil]
  | @cons p p₁ p₂ line items h hrest ih =>
    have hstep := h.localParts hp
    cases hrep : line.isReplica with
    | true =>
      obtain rfl : line = .replica := by
        cases line <;> first | rfl | cases hrep
      rw [if_pos hrep] at hstep
      have hgroups : p₁.set.localParts = init ++ [last] ++ [[]] := by
        rw [hstep, append_assoc]
        rfl
      rw [ih hgroups, partsWritten_replica, modifyHead_cons, append_nil, append_assoc]
      cases partsWritten items <;> rfl
    | false =>
      rw [if_neg (by simp [hrep])] at hstep
      rw [ih hstep, partsWritten_cons hrep, modifyHead_modifyHead]
      congr 2
      funext parts
      exact append_assoc _ _ _

structure Parser.Inv (p : Parser) : Prop where
  first_local : ∀ rep ∈ p.set.replica.head?, rep.remote = false
  replica_ne_nil : p.set.replica ≠ []
  remote_part : ∀ rep ∈ p.set.replica, rep.remote = true →
    rep.part.map Part.written = [(2 * poolHdrSize, [])]
  nparts : ∃ init last, p.set.localParts = init ++ [last] ∧ (∀ parts ∈ init, parts ≠ []) ∧
    p.nparts = last.length

theorem Step.nparts (h : Step env p line p') (hp : p.set.localParts = init ++ [last])
    (hinit : ∀ parts ∈ init, parts ≠ []) (hlast : p.nparts = last.length) :
    ∃ init last, p'.set.localParts = init ++ [last] ∧ (∀ parts ∈ init, parts ≠ []) ∧
      p'.nparts = last.length := by
  have hstep := h.localParts hp
  cases h with
  | option flags =>
    refine ⟨init, last ++ [], hstep, hinit, ?_⟩
    rw [append_nil]
    exact hlast
  | replica hparts =>
    have hgroups : init ++ [last, []] = init ++ [last] ++ [[]] := by
      rw [append_assoc]
      rfl
    refine ⟨init ++ [last], [], hstep.trans hgroups, ?_, rfl⟩
    intro parts hmem
    rcases mem_append.mp hmem with hmem | hmem
    · exact hinit parts hmem
    · obtain rfl := mem_singleton.mp hmem
      exact length_pos_iff.mp (hlast ▸ hparts)
  | remote rep =>
    refine ⟨init, last ++ [], hstep, hinit, ?_⟩
    rw [append_nil]
    exact hlast
  | @part initRep rep size path hset hlocal hlen =>
    refine ⟨init, last ++ [(size, path)], hstep, hinit, ?_⟩
    change localsOf p.set.replica = init ++ [last] at hp
    rw [hset, localsOf_append, localsOf_local hlocal] at hp
    have hpart := singleton_inj.mp (List.append_inj' hp rfl).2
    rw [← hpart, length_map] at hlast
    rw [← hpart, length_append, length_map]
    show (p.nparts + 1) % 2 ^ 32 = _
    rw [hlast, Nat.mod_eq_of_lt hlen]
    rfl

theorem Step.inv (h : Step env p line p') (hp : p.Inv) : p'.Inv := by
  obtain ⟨init, last, hlocals, hinit, hlast⟩ := hp.nparts
  have hhead {r : List Replica} {rep : Replica} (hr : rep ∈ (p.set.replica ++ r).head?) :
      rep.remote = false := by
    rw [head?_append_of_ne_nil _ hp.replica_ne_nil] at hr
    exact hp.first_local rep hr
  refine ⟨?_, h.replica_ne_nil hp.replica_ne_nil, ?_, h.nparts hlocals hinit hlast⟩
  · cases h with
    | option flags =>
      rw [foldl_addOption]
      exact hp.first_local
    | replica hparts => exact fun rep hrep => hhead hrep
    | remote rep => exact fun rep hrep => hhead hrep
    | @part initRep rep size path hset hlocal hlen =>
      have hfirst := hp.first_local
      rw [hset] at hfirst
      cases initRep with
      | nil =>
        rintro _ ⟨⟩
        exact hlocal
      | cons first initRep => exact hfirst
  · cases h with
    | option flags =>
      rw [foldl_addOption]
      exact hp.remote_part
    | replica hparts =>
      intro rep hrep hremote
      rcases mem_append.mp hrep with hrep | hrep
      · exact hp.remote_part rep hrep hremote
      · rw [mem_singleton.mp hrep] at hremote
        cases hremote
    | remote remote =>
      intro rep hrep hremote
      rcases mem_append.mp hrep with hrep | hrep
      · exact hp.remote_part rep hrep hremote
      · rw [mem_singleton.mp hrep]
        rfl
    | @part initRep last size path hset hlocal hlen =>
      intro rep hrep hremote
      rcases mem_append.mp hrep with hrep | hrep
      · exact hp.remote_part rep (hset ▸ mem_append_left _ hrep) hremote
      · rw [mem_singleton.mp hrep] at hremote
        exact (Bool.eq_false_iff.mp hlocal hremote).elim

theorem Run.inv (h : Run env p items p') (hp : p.Inv) : p'.Inv := by
  induction h with
  | nil p => exact hp
  | cons h hrest ih => exact ih (h.inv hp)

theorem Run.remote (h : Run env p items p') :
    p'.remote = p.remote ++ items.filterMap Line.remote? := by
  induction h with
  | nil p => exact (append_nil _).symm
  | @cons p p₁ p₂ line items h hrest ih =>
    rw [ih]
    cases h with
    | option flags => rfl
    | replica h => rfl
    | remote rep =>
      rw [filterMap_cons_some (f := Line.remote?) rfl, append_assoc]
      rfl
    | part hset hlocal hlen => rfl

theorem Run.singlehdr (h : Run env p items p') : p'.set.singlehdr =
    (p.set.singlehdr || decide (OptionFlag.singlehdr ∈ items.flatMap Line.flags)) := by
  induction h with
  | nil p => simp
  | @cons p p₁ p₂ line items h hrest ih =>
    rw [ih]
    cases h with
    | option flags => simp [foldl_addOption, Line.flags, Bool.or_assoc]
    | replica h => rfl
    | remote rep => rfl
    | part hset hlocal hlen => rfl

theorem Run.nohdrs (h : Run env p items p') : p'.set.nohdrs =
    (p.set.nohdrs || decide (OptionFlag.nohdrs ∈ items.flatMap Line.flags)) := by
  induction h with
  | nil p => simp
  | @cons p p₁ p₂ line items h hrest ih =>
    rw [ih]
    cases h with
    | option flags => simp [foldl_addOption, Line.flags, Bool.or_assoc]
    | replica h => rfl
    | remote rep => rfl
    | part hset hlocal hlen => rfl

/-! ## The size of the pool -/

variable {align : Nat} {set : PoolSet} {rep : Replica}

theorem sumParts_mod (align : Nat) (part : List Part) (n : Nat) :
    part.foldl (fun n p => (n + alignDown p.filesize align) % 2 ^ 64) (n % 2 ^ 64) =
      (n + (part.map fun p => alignDown p.filesize align).sum) % 2 ^ 64 := by
  induction part generalizing n with
  | nil => rfl
  | cons p part ih =>
    rw [foldl_cons, Nat.mod_add_mod, ih, map_cons, sum_cons, Nat.add_assoc]

theorem sizedReplica_repsize (align : Nat) (hsingle : set.singlehdr = decide (OptionFlag.singlehdr ∈
    items.flatMap Line.flags)) (hno : set.nohdrs = decide (OptionFlag.nohdrs ∈
    items.flatMap Line.flags)) (rep : Replica) :
    ((set.sizedReplica align rep).repsize : Int) =
      sizeWritten align items (rep.part.map Part.written) % 2 ^ 64 := by
  have hnhdrs : set.nhdrs rep = headersWritten items rep.part.length := by
    rw [PoolSet.nhdrs, headersWritten, hsingle, hno]
    simp only [decide_eq_true_eq]
  have hsum : sumParts align rep.part =
      (rep.part.map fun p => alignDown p.filesize align).sum % 2 ^ 64 := by
    have := sumParts_mod align rep.part 0
    rwa [Nat.zero_add] at this
  have hwritten : ((rep.part.map Part.written).map fun part => alignDown part.1 align) =
      rep.part.map fun p => alignDown p.filesize align := by
    rw [map_map]
    rfl
  rw [sizeWritten, hwritten, length_map]
  show ((if 0 < set.nhdrs rep then _ else _ : Nat) : Int) = _
  rw [hnhdrs, hsum]
  generalize (rep.part.map fun p => alignDown p.filesize align).sum = sum
  generalize headersWritten items rep.part.length = nhdrs
  split
  · generalize (nhdrs - 1) * align = hdrs
    omega
  next hzero =>
    rw [Nat.sub_eq_zero_of_le (by omega), Nat.zero_mul]
    omega

/-- The size of the pool is the smallest size of a local replica, modulo `2 ^ 64`. -/
theorem poolsize_spec (align : Nat) (hsingle : set.singlehdr = decide (OptionFlag.singlehdr ∈
    items.flatMap Line.flags)) (hno : set.nohdrs = decide (OptionFlag.nohdrs ∈
    items.flatMap Line.flags)) (hne : set.localParts ≠ []) :
    ((utilPoolsetSetSize align set).poolsize : Int) ∈
        (set.localParts.map (sizeWritten align items)).map (· % 2 ^ 64) ∧
      ∀ size ∈ (set.localParts.map (sizeWritten align items)).map (· % 2 ^ 64),
        ((utilPoolsetSetSize align set).poolsize : Int) ≤ size := by
  have hsizes : ∀ size, size ∈ (set.localParts.map (sizeWritten align items)).map (· % 2 ^ 64) ↔
      ∃ rep ∈ set.replica, rep.remote = false ∧
        size = ((set.sizedReplica align rep).repsize : Int) := by
    intro size
    simp only [sizedReplica_repsize align hsingle hno, PoolSet.localParts, mem_map,
      mem_filter, Bool.not_eq_true']
    constructor
    · rintro ⟨_, ⟨_, ⟨rep, ⟨hmem, hlocal⟩, rfl⟩, rfl⟩, rfl⟩
      exact ⟨rep, hmem, hlocal, rfl⟩
    · rintro ⟨rep, hmem, hlocal, rfl⟩
      exact ⟨_, ⟨_, ⟨rep, ⟨hmem, hlocal⟩, rfl⟩, rfl⟩, rfl⟩
  have hlt : ∀ rep, (set.sizedReplica align rep).repsize ≤ sizeMax := by
    intro rep
    have := sizedReplica_repsize align hsingle hno rep
    rw [sizeMax]
    omega
  obtain ⟨hleast, -, hall⟩ := smallest_spec
    (rfl : smallest Replica.repsize (set.replica.map (set.sizedReplica align)) =
      (utilPoolsetSetSize align set).poolsize)
  have hle : ∀ rep ∈ set.replica, rep.remote = false →
      (utilPoolsetSetSize align set).poolsize ≤ (set.sizedReplica align rep).repsize :=
    fun rep hmem hlocal => hall _ (mem_map_of_mem hmem) hlocal
  refine ⟨(hsizes _).mpr ?_, fun size hsize => ?_⟩
  · rcases hleast with hmax | ⟨_, hmem', hlocal, heq⟩
    · change (utilPoolsetSetSize align set).poolsize = sizeMax at hmax
      obtain ⟨parts, hparts⟩ := exists_mem_of_ne_nil _ hne
      obtain ⟨rep, hmem, -⟩ := mem_map.mp hparts
      obtain ⟨hmem, hlocal⟩ := mem_filter.mp hmem
      have hlocal : rep.remote = false := by simpa using hlocal
      refine ⟨rep, hmem, hlocal, ?_⟩
      have h₁ := hle rep hmem hlocal
      have h₂ := hlt rep
      omega
    · obtain ⟨rep, hmem, rfl⟩ := mem_map.mp hmem'
      exact ⟨rep, hmem, hlocal, congrArg Nat.cast heq.symm⟩
  · obtain ⟨rep, hmem, hlocal, rfl⟩ := (hsizes size).mp hsize
    exact Int.ofNat_le.mpr (hle rep hmem hlocal)

theorem plainSizes_iff {sizes : List Int} {least : Nat}
    (hmem : (least : Int) ∈ sizes.map (· % 2 ^ 64))
    (hle : ∀ size ∈ sizes.map (· % 2 ^ 64), (least : Int) ≤ size) :
    PlainSizes sizes ↔ (least : Int) ∈ sizes ∧ ∀ size ∈ sizes, (least : Int) ≤ size := by
  constructor
  · rintro ⟨size, hsize, hpos, hall⟩
    obtain ⟨other, hother, heq⟩ := mem_map.mp hmem
    have h₁ := hle _ (mem_map_of_mem hsize)
    have h₂ := (hall other hother).2
    have h₃ := (hall size hsize).2
    have hsame : size = least := by omega
    exact ⟨hsame ▸ hsize, fun other hother => hsame ▸ (hall other hother).1⟩
  · rintro ⟨hsize, hall⟩
    exact ⟨least, hsize, Int.natCast_nonneg least, fun other hother =>
      ⟨hall other hother, hle _ (mem_map_of_mem hother)⟩⟩

/-! ## The set that is written -/

theorem modifyHead_append_inj {α : Type} {x x' : List α} {l l' : List (List α)}
    (hx : x.length = x'.length) (hl : l ≠ []) (hl' : l' ≠ [])
    (h : l.modifyHead (x ++ ·) = l'.modifyHead (x' ++ ·)) : x = x' ∧ l = l' := by
  cases l with
  | nil => exact (hl rfl).elim
  | cons a l =>
    cases l' with
    | nil => exact (hl' rfl).elim
    | cons a' l' =>
      obtain ⟨hhead, htail⟩ := List.cons.inj h
      obtain ⟨hxx, haa⟩ := append_inj hhead hx
      exact ⟨hxx, by rw [haa, htail]⟩

variable {texts : List (List Char)}

theorem items_eq {items items' : List Line}
    (h : List.Forall₂ Takes texts items) (h' : texts.map lineOf = items'.map some)
    (hparts : partsWritten items = partsWritten items') : items = items' := by
  induction h generalizing items' with
  | nil =>
    cases items' with
    | nil => rfl
    | cons line items' => cases h'
  | @cons text line texts items htakes htexts ih =>
    cases items' with
    | nil => cases h'
    | cons line' items' =>
      obtain ⟨hline, hlines⟩ := List.cons.inj h'
      rcases htakes.lineOf_alike hline with rfl | ⟨size, size', path, rfl, rfl⟩
      · cases hrep : line.isReplica with
        | true =>
          obtain rfl : line = .replica := by
            cases line <;> first | rfl | cases hrep
          rw [partsWritten_replica, partsWritten_replica] at hparts
          rw [ih hlines (List.cons.inj hparts).2]
        | false =>
          rw [partsWritten_cons hrep, partsWritten_cons hrep] at hparts
          rw [ih hlines (modifyHead_append_inj rfl (partsWritten_ne_nil _)
            (partsWritten_ne_nil _) hparts).2]
      · rw [partsWritten_cons rfl, partsWritten_cons rfl] at hparts
        obtain ⟨hpart, htail⟩ := modifyHead_append_inj (by rfl) (partsWritten_ne_nil _)
          (partsWritten_ne_nil _) hparts
        obtain ⟨rfl, -⟩ := Prod.mk.inj (singleton_inj.mp hpart)
        rw [ih hlines htail]

theorem map_lineOf_iff (h : List.Forall₂ Takes texts items) :
    texts.map lineOf = items.map some ↔ ∀ text ∈ texts, PlainText text := by
  induction h with
  | nil => simp
  | cons htakes htexts ih =>
    rw [map_cons, map_cons, cons_eq_cons, htakes.lineOf_eq, ih, forall_mem_cons]

theorem filterMap_lineOf (h : texts.map lineOf = items.map some) :
    texts.filterMap lineOf = items := by
  have hid : (texts.map lineOf).filterMap id = (items.map some).filterMap id := by rw [h]
  rwa [filterMap_map, filterMap_map, Function.id_comp, Function.id_comp, filterMap_some] at hid

def startParser : Parser := ⟨{ zeroSet with replica := [zeroReplica] }, [], 0⟩

theorem startParser_inv : startParser.Inv where
  first_local := by
    rintro _ ⟨⟩
    rfl
  replica_ne_nil := cons_ne_nil _ _
  remote_part := by
    intro rep hrep hremote
    rw [mem_singleton.mp hrep] at hremote
    cases hremote
  nparts := ⟨[], [], rfl, fun parts hmem => absurd hmem not_mem_nil, rfl⟩

theorem Run.localParts_start (h : Run env startParser items p) :
    p.set.localParts = partsWritten items := by
  have hstart : startParser.set.localParts = [] ++ [[]] := rfl
  rw [h.localParts hstart, nil_append]
  cases partsWritten items <;> rfl

theorem utilPoolsetParse_ok {lines : List (List Char)} {remote : List RemoteReplica}
    (h : utilPoolsetParse env lines = .ok (set, remote)) :
    ∃ first rest items p, lines = first :: rest ∧
      first.takeWhile (· != '\n') = "PMEMPOOLSET".toList ∧
      List.Forall₂ Takes (contents rest) items ∧ Run env startParser items p ∧ 1 ≤ p.nparts ∧
      set = utilPoolsetSetSize env.mmapAlign p.set ∧ remote = p.remote := by
  cases lines with
  | nil => cases h
  | cons first rest =>
    rw [utilPoolsetParse] at h
    split at h
    next hsig =>
      obtain ⟨⟨t, rfl⟩, hnl⟩ := hsig
      have hfirst : ("PMEMPOOLSET".toList ++ t).takeWhile (· != '\n') = "PMEMPOOLSET".toList := by
        rw [takeWhile_append_of_pos (all_eq_true.mp rfl)]
        cases t with
        | nil => cases hnl
        | cons ch t =>
          obtain rfl : ch = '\n' := Option.some.inj hnl
          rw [takeWhile_cons_of_neg (by decide), append_nil]
      split at h
      · cases h
      next set₀ hadd =>
        obtain rfl := utilParseAddReplica_ok hadd
        split at h
        · cases h
        next p hloop =>
          cases h
          obtain ⟨items, hitems, hrun, hparts⟩ := parseLoop_ok (cons_ne_nil _ _) hloop
          exact ⟨_, rest, items, p, rfl, hfirst, hitems, hrun, hparts, rfl, rfl⟩
    · cases h

theorem sizedReplica_locals (align : Nat) (set : PoolSet) :
    (utilPoolsetSetSize align set).localParts = set.localParts := by
  rw [PoolSet.localParts, PoolSet.localParts, utilPoolsetSetSize]
  dsimp only
  rw [filter_map, map_map]
  rfl

/-- What the parser takes the lines for describes its result, up to the size of the pool. -/
theorem Run.describes_iff (h : Run env startParser items p) (hparts : 1 ≤ p.nparts) :
    Describes env.mmapAlign items (utilPoolsetSetSize env.mmapAlign p.set) p.remote ↔
      PlainSizes (sizesWritten env.mmapAlign items) := by
  have hinv := h.inv startParser_inv
  have hlocals := h.localParts_start
  have hsizes : p.set.localParts.map (sizeWritten env.mmapAlign items) =
      sizesWritten env.mmapAlign items := by rw [hlocals, sizesWritten]
  have hne : p.set.localParts ≠ [] := hlocals ▸ partsWritten_ne_nil items
  obtain ⟨hmem, hle⟩ := poolsize_spec env.mmapAlign (h.singlehdr.trans (Bool.false_or _))
    (h.nohdrs.trans (Bool.false_or _)) hne
  rw [hsizes] at hmem hle
  rw [plainSizes_iff hmem hle]
  constructor
  · intro hset
    exact ⟨hset.poolsize_mem, hset.poolsize_le⟩
  · rintro ⟨hmem, hle⟩
    obtain ⟨init, last, hgroups, hinit, hlast⟩ := hinv.nparts
    refine ⟨?_, ?_, ?_, ?_, ?_, h.remote, hmem, hle⟩
    · intro rep hrep
      rw [utilPoolsetSetSize] at hrep
      dsimp only at hrep
      rw [head?_map] at hrep
      obtain ⟨rep', hrep', rfl⟩ := Option.map_eq_some_iff.mp hrep
      exact hinv.first_local rep' hrep'
    · exact fun heq => hinv.replica_ne_nil (map_eq_nil_iff.mp heq)
    · intro rep hrep hlocal
      obtain ⟨rep', hrep', rfl⟩ := mem_map.mp hrep
      have hgroup : rep'.part.map Part.written ∈ p.set.localParts :=
        mem_map_of_mem (mem_filter.mpr ⟨hrep', by
          have : rep'.remote = false := hlocal
          rw [this, Bool.not_false]⟩)
      rw [hgroups] at hgroup
      have hgroup : rep'.part.map Part.written ≠ [] := by
        rcases mem_append.mp hgroup with hgroup | hgroup
        · exact hinit _ hgroup
        · rw [mem_singleton.mp hgroup]
          exact length_pos_iff.mp (hlast ▸ hparts)
      exact fun heq => hgroup (map_eq_nil_iff.mpr heq)
    · intro rep hrep hremote
      obtain ⟨rep', hrep', rfl⟩ := mem_map.mp hrep
      exact hinv.remote_part rep' hrep' hremote
    · rw [sizedReplica_locals, hlocals]

/-- The parser builds the set that is written exactly if every option has a blank before it, every
size is a number below `2 ^ 64`, and the sizes of the replicas do not wrap around. -/
theorem poolset_parse_builds_iff {lines : List (List Char)} {remote : List RemoteReplica}
    (h : utilPoolsetParse env lines = .ok (set, remote)) :
    Builds env.mmapAlign lines set remote ↔ Plain env.mmapAlign lines := by
  obtain ⟨first, rest, items, p, rfl, hfirst, hitems, hrun, hparts, rfl, rfl⟩ :=
    utilPoolsetParse_ok h
  constructor
  · rintro ⟨first', rest', items', hlines, -, hlineOf, hset⟩
    obtain ⟨rfl, rfl⟩ := List.cons.inj hlines
    have hsame : partsWritten items = partsWritten items' := by
      rw [← hset.parts, sizedReplica_locals, hrun.localParts_start]
    obtain rfl := items_eq hitems hlineOf hsame
    refine ⟨(map_lineOf_iff hitems).mp hlineOf, ?_⟩
    rw [List.tail_cons, filterMap_lineOf hlineOf]
    exact (hrun.describes_iff hparts).mp hset
  · rintro ⟨hplain, hsizes⟩
    have hlineOf := (map_lineOf_iff hitems).mpr hplain
    rw [List.tail_cons, filterMap_lineOf hlineOf] at hsizes
    exact ⟨first, rest, items, rfl, hfirst, hlineOf, (hrun.describes_iff hparts).mpr hsizes⟩

theorem exists_ok {ε α : Type} {r : Except ε α} {q : α → Bool} (h : r.toOption.any q = true) :
    ∃ a, r = .ok a ∧ q a = true := by
  cases r with
  | error e => cases h
  | ok a => exact ⟨a, rfl, h⟩

def replicaLines : List (List Char) :=
  ["PMEMPOOLSET\n", "OPTION SINGLEHDR\n", "# local\n", "20MiB /mnt/part0\n",
    "20M\t/mnt/part1 # last\n", "REPLICA\n", "40MB /mnt/copy\n",
    "REPLICA node pool.set\n"].map String.toList

theorem plainText_iff (text : List Char) : PlainText text ↔
    ("OPTION".toList <+: text → (wordsOf text).head? = some "OPTION".toList) ∧
      (¬"OPTION".toList <+: text → ¬"REPLICA".toList <+: text →
        ((wordsOf text).head?.bind writtenSize).any (· < 2 ^ 64) = true) := by
  simp only [PlainText, Option.any_eq_true, decide_eq_true_eq]

theorem replicaLines_plain : Plain 4096 replicaLines := by
  refine ⟨fun text ht => (plainText_iff text).mpr ?_, 39997440, ?_, by decide, ?_⟩
  · revert text
    decide +kernel
  · decide +kernel
  · decide +kernel

theorem poolset_parse_builds_replica :
    ∃ set remote, utilPoolsetParse ⟨4096, fun _ => .notExists⟩ replicaLines = .ok (set, remote) ∧
      set.poolsize = 39997440 ∧ Builds 4096 replicaLines set remote := by
  have hok : (utilPoolsetParse ⟨4096, fun _ => .notExists⟩ replicaLines).toOption.any
      (fun r => r.1.poolsize == 39997440) = true := by
    decide +kernel
  obtain ⟨⟨set, remote⟩, hparse, hsize⟩ := exists_ok hok
  exact ⟨set, remote, hparse, eq_of_beq hsize,
    (poolset_parse_builds_iff hparse).mpr replicaLines_plain⟩

/-- The size of the part is 16385 times `2 ^ 50`. -/
def petaLines : List (List Char) := ["PMEMPOOLSET\n", "16385P /mnt/part\n"].map String.toList

/-- The size that is too large is read as `2 ^ 50`. -/
theorem not_builds_peta :
    ∃ set remote, utilPoolsetParse ⟨4096, fun _ => .notExists⟩ petaLines = .ok (set, remote) ∧
      ¬Builds 4096 petaLines set remote := by
  have hok : (utilPoolsetParse ⟨4096, fun _ => .notExists⟩ petaLines).toOption.any
      (fun r => r.1.localParts == [[(2 ^ 50, "/mnt/part".toList)]]) = true := by
    decide +kernel
  obtain ⟨⟨set, remote⟩, hparse, hparts⟩ := exists_ok hok
  refine ⟨set, remote, hparse, ?_⟩
  rintro ⟨first, rest, items, hlines, -, hlineOf, hset⟩
  have hrest : rest = petaLines.tail := by rw [hlines, List.tail_cons]
  have hline : (contents petaLines.tail).filterMap lineOf =
      [.part (16385 * 2 ^ 50) "/mnt/part".toList] := by
    decide +kernel
  have hitems : items = [.part (16385 * 2 ^ 50) "/mnt/part".toList] := by
    rw [← hline, ← hrest, filterMap_lineOf hlineOf]
  have hwritten := hset.parts
  rw [eq_of_beq hparts, hitems] at hwritten
  exact absurd hwritten (by decide +kernel)

end Pmdk.Poolset
