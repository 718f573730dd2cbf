import Pmdk.Pool.PoolsetParse

/-!
# What is written in a poolset file

`lineOf` says what a line stands for, with the size of a part as an unbounded number, and
`Describes` when a pool set is the one that the lines describe.
-/

namespace Pmdk.Poolset

open Sync (alignDown poolHdrSize)
open List

inductive Line
  | option (flags : List OptionFlag)
  | replica
  | remote (rep : RemoteReplica)
  | part (size : Nat) (path : List Char)
  deriving DecidableEq

def writtenSize (str : List Char) : Option Nat :=
  let digits := str.takeWhile Char.isDigit
  let n := Nat.ofDigitChars 10 digits 0
  if digits = [] then none
  else if str.drop digits.length = [] then some n
  else (suffixes.lookup (str.drop digits.length)).map fun mag => n * mag

def wordsOf (text : List Char) : List (List Char) := Words.words isblank text

def lineOf (text : List Char) : Option Line :=
  match wordsOf text with
  | [] => none
  | word :: rest =>
    if word = "OPTION".toList then
      if rest = [] then none else (rest.mapM optionFlag).map Line.option
    else if word = "REPLICA".toList then
      match rest with
      | [] => some .replica
      | [node, desc] => if utilIsAbsolutePath desc then none else some (.remote ⟨node, desc⟩)
      | _ => none
    else
      match rest with
      | [path] =>
        if utilIsAbsolutePath path then (writtenSize word).map fun size => .part size path
        else none
      | _ => none

def content (line : List Char) : List Char := (line.takeWhile (· != '\n')).takeWhile (· != '#')

def contents (lines : List (List Char)) : List (List Char) := (lines.map content).filter (· ≠ [])

def Line.isReplica : Line → Bool
  | .replica => true
  | _ => false

def Line.part? : Line → Option (Nat × List Char)
  | .part size path => some (size, path)
  | _ => none

def Line.remote? : Line → Option RemoteReplica
  | .remote rep => some rep
  | _ => none

def Line.flags : Line → List OptionFlag
  | .option flags => flags
  | _ => []

def partsWritten (items : List Line) : List (List (Nat × List Char)) :=
  (items.splitOnP Line.isReplica).map fun block => block.filterMap Line.part?

/-- The number of headers of a replica with `nparts` parts. -/
def headersWritten (items : List Line) (nparts : Nat) : Nat :=
  if OptionFlag.singlehdr ∈ items.flatMap Line.flags then 1
  else if OptionFlag.nohdrs ∈ items.flatMap Line.flags then 0
  else nparts

def sizeWritten (align : Nat) (items : List Line) (parts : List (Nat × List Char)) : Int :=
  ((parts.map fun part => alignDown part.1 align).sum : Nat) -
    ((headersWritten items parts.length - 1) * align : Nat)

def sizesWritten (align : Nat) (items : List Line) : List Int :=
  (partsWritten items).map (sizeWritten align items)

def Part.written (part : Part) : Nat × List Char := (part.filesize, part.path)

def PoolSet.localParts (set : PoolSet) : List (List (Nat × List Char)) :=
  (set.replica.filter (!·.remote)).map fun rep => rep.part.map Part.written

structure Describes (align : Nat) (items : List Line) (set : PoolSet)
    (remote : List RemoteReplica) : Prop where
  first_local : ∀ rep ∈ set.replica.head?, rep.remote = false
  replica_ne_nil : set.replica ≠ []
  local_parts : ∀ rep ∈ set.replica, rep.remote = false → rep.part ≠ []
  remote_part : ∀ rep ∈ set.replica, rep.remote = true →
    rep.part.map Part.written = [(2 * poolHdrSize, [])]
  parts : set.localParts = partsWritten items
  remote : remote = items.filterMap Line.remote?
  poolsize_mem : (set.poolsize : Int) ∈ sizesWritten align items
  poolsize_le : ∀ size ∈ sizesWritten align items, (set.poolsize : Int) ≤ size

/-- A file has a first line that says PMEMPOOLSET, and every other line that is not empty and not a
comment says something that belongs to the set. -/
def Builds (align : Nat) (lines : List (List Char)) (set : PoolSet)
    (remote : List RemoteReplica) : Prop :=
  ∃ first rest items, lines = first :: rest ∧
    first.takeWhile (· != '\n') = "PMEMPOOLSET".toList ∧
    (contents rest).map lineOf = items.map some ∧ Describes align items set remote

/-- The parser takes a line for what it says: there is a blank behind OPTION, and the size of a part
is a decimal number, with or without a suffix, and below `2 ^ 64`. -/
def PlainText (text : List Char) : Prop :=
  ("OPTION".toList <+: text → (wordsOf text).head? = some "OPTION".toList) ∧
    (¬"OPTION".toList <+: text → ¬"REPLICA".toList <+: text →
      ∃ size, (wordsOf text).head?.bind writtenSize = some size ∧ size < 2 ^ 64)

/-- The smallest local replica has room for its headers, and no larger one has, modulo `2 ^ 64`, a
smaller size. -/
def PlainSizes (sizes : List Int) : Prop :=
  ∃ size ∈ sizes, 0 ≤ size ∧ ∀ other ∈ sizes, size ≤ other ∧ size ≤ other % 2 ^ 64

def Plain (align : Nat) (lines : List (List Char)) : Prop :=
  (∀ text ∈ contents lines.tail, PlainText text) ∧
    PlainSizes (sizesWritten align ((contents lines.tail).filterMap lineOf))

inductive Takes : List Char → Line → Prop
  | option {rest : List Char} {flags : List OptionFlag} (hne : wordsOf rest ≠ [])
      (h : (wordsOf rest).map optionFlag = flags.map some) :
      Takes ("OPTION".toList ++ rest) (.option flags)
  | replica : Takes "REPLICA".toList .replica
  | remote {ch : Char} {rest node desc : List Char} (hch : isblank ch = true)
      (h : wordsOf (ch :: rest) = [node, desc]) (hdesc : utilIsAbsolutePath desc = false) :
      Takes ("REPLICA".toList ++ ch :: rest) (.remote ⟨node, desc⟩)
  | part {text str path : List Char} {size : Nat} (hoption : ¬"OPTION".toList <+: text)
      (hreplica : ¬"REPLICA".toList <+: text) (h : wordsOf text = [str, path])
      (hpath : utilIsAbsolutePath path = true) (hsize : utilParseSize str = some size)
      (hpos : size ≠ 0) : Takes text (.part size path)

/-! ## Tokens -/

theorem wordsOf_strtokR (s : List Char) :
    wordsOf s = match strtokR s with
      | (none, _) => []
      | (some word, rest) => word :: wordsOf rest := by
  rw [wordsOf, Words.words_eq, strtokR]
  split <;> rfl

variable {s rest : List Char} {size : Nat} {set : PoolSet}

theorem strtokR_none {s' : List Char} (h : strtokR s = (none, s')) : wordsOf s = [] := by
  rw [wordsOf_strtokR, h]

theorem strtokR_some {s' word : List Char} (h : strtokR s = (some word, s')) :
    wordsOf s = word :: wordsOf s' := by
  rw [wordsOf_strtokR, h]

variable {env : ParseEnv}

theorem parserReadLine_ok {line path : List Char} (h : parserReadLine env line = .ok (size, path)) :
    ∃ str, wordsOf line = [str, path] ∧ utilIsAbsolutePath path = true ∧
      utilParseSize str = some size ∧ size ≠ 0 := by
  rw [parserReadLine] at h
  rcases hfst : strtokR line with ⟨fst, s⟩
  rcases hsnd : strtokR s with ⟨snd, s'⟩
  rcases hrest : strtokR s' with ⟨rest, s''⟩
  rw [hfst] at h
  dsimp only at h
  rw [hsnd] at h
  dsimp only at h
  rw [hrest] at h
  dsimp only at h
  split at h
  next str path' =>
    have hauto : utilAutodetectSize env path' = none := by
      rw [utilAutodetectSize]
      split <;> rfl
    have hwords : wordsOf line = [str, path'] := by
      rw [strtokR_some hfst, strtokR_some hsnd, strtokR_none hrest]
    rw [hauto] at h
    split at h
    · cases h
    next habs =>
      split at h
      · cases h
      · split at h
        · cases h
        next size' hsize =>
          split at h
          · cases h
          next hpos =>
            cases h
            exact ⟨str, hwords, by simpa using habs, hsize, hpos⟩
  · cases h

theorem parserReadReplica_ok {line : List Char} {rep : RemoteReplica}
    (h : parserReadReplica line = .ok rep) :
    wordsOf line = [rep.nodeAddr, rep.poolDesc] ∧ utilIsAbsolutePath rep.poolDesc = false := by
  rw [parserReadReplica] at h
  rcases hfst : strtokR line with ⟨fst, s⟩
  rcases hsnd : strtokR s with ⟨snd, s'⟩
  rcases hrest : strtokR s' with ⟨rest, s''⟩
  rw [hfst] at h
  dsimp only at h
  rw [hsnd] at h
  dsimp only at h
  rw [hrest] at h
  dsimp only at h
  split at h
  next node desc =>
    cases rest with
    | some _ => cases h
    | none =>
      split at h
      · rename_i habs
        cases habs
      · split at h
        · cases h
        next habs =>
          cases h
          exact ⟨by rw [strtokR_some hfst, strtokR_some hsnd, strtokR_none hrest],
            by simpa using habs⟩
  · cases h

variable {set' : PoolSet}

theorem readOptionsLoop_ok {fuel cnt : Nat} (h : readOptionsLoop fuel cnt s set = .ok set') :
    ∃ flags : List OptionFlag, (wordsOf s).map optionFlag = flags.map some ∧
      set' = flags.foldl PoolSet.addOption set ∧ (cnt = 0 → wordsOf s ≠ []) := by
  induction fuel generalizing cnt s set with
  | zero => cases h
  | succ fuel ih =>
    rw [readOptionsLoop] at h
    rcases htok : strtokR s with ⟨tok, s'⟩
    rw [htok] at h
    cases tok with
    | none =>
      dsimp only at h
      split at h
      · cases h
      next hcnt =>
        cases h
        exact ⟨[], by rw [strtokR_none htok]; rfl, rfl, fun hzero => (hcnt hzero).elim⟩
    | some word =>
      dsimp only at h
      split at h
      · cases h
      next flag hflag =>
        obtain ⟨flags, hflags, hset, -⟩ := ih h
        refine ⟨flag :: flags, ?_, hset, fun _ => ?_⟩
        · rw [strtokR_some htok, map_cons, map_cons, hflag, hflags]
        · rw [strtokR_some htok]
          exact cons_ne_nil _ _

/-! ## One line -/

inductive Step (env : ParseEnv) : Parser → Line → Parser → Prop
  | option {p : Parser} (flags : List OptionFlag) :
      Step env p (.option flags) { p with set := flags.foldl PoolSet.addOption p.set }
  | replica {p : Parser} (h : 1 ≤ p.nparts) :
      Step env p .replica
        { p with set.replica := p.set.replica ++ [zeroReplica], nparts := 0 }
  | remote {p : Parser} (rep : RemoteReplica) :
      Step env p (.remote rep)
        { p with
          set.replica := p.set.replica ++
            [{ zeroReplica with part := [parsedPart env [] (2 * poolHdrSize)], remote := true }]
          remote := p.remote ++ [rep] }
  | part {p : Parser} {init : List Replica} {rep : Replica} {size : Nat} {path : List Char}
      (hset : p.set.replica = init ++ [rep]) (hlocal : rep.remote = false)
      (hlen : rep.part.length + 1 < 2 ^ 32) :
      Step env p (.part size path)
        { p with
          set.replica := init ++ [{ rep with part := rep.part ++ [parsedPart env path size] }]
          nparts := (p.nparts + 1) % 2 ^ 32 }

theorem utilParseAddReplica_ok (h : utilParseAddReplica set = .ok set') :
    set' = { set with replica := set.replica ++ [zeroReplica] } := by
  rw [utilParseAddReplica] at h
  split at h <;> cases h
  rfl

theorem modifyLast_append {init : List Replica} {rep : Replica}
    (h : set.replica = init ++ [rep]) (f : Replica → Replica) :
    set.modifyLast f = { set with replica := init ++ [f rep] } := by
  have hmodify : (init ++ [rep]).modify init.length f = init ++ [f rep] :=
    modifyTailIdx_add (List.modifyHead f) 0 init [rep]
  simp [PoolSet.modifyLast, h, hmodify]

theorem utilParseAddPart_ok {init : List Replica}
    {rep : Replica} {path : Option (List Char)} (hset : set.replica = init ++ [rep])
    (h : utilParseAddPart env set path size = .ok set') :
    rep.part.length + 1 < 2 ^ 32 ∧
      set' = { set with replica := init ++
        [{ rep with part := rep.part ++ [parsedPart env (path.getD []) size] }] } := by
  rw [utilParseAddPart, hset, getLast?_concat] at h
  dsimp only at h
  split at h
  · cases h
  next hlen =>
    split at h
    · cases h
    · cases h
      exact ⟨Nat.lt_of_not_le hlen, modifyLast_append hset _⟩

theorem utilParseAddRemoteReplica_ok (h : utilParseAddRemoteReplica env set = .ok set') :
    set' = { set with replica := set.replica ++
      [{ zeroReplica with part := [parsedPart env [] (2 * poolHdrSize)], remote := true }] } := by
  rw [utilParseAddRemoteReplica] at h
  split at h
  · cases h
  next set₁ hset₁ =>
    split at h
    · cases h
    next set₂ hset₂ =>
      cases h
      have hrep₁ := utilParseAddReplica_ok hset₁
      obtain ⟨-, hrep₂⟩ := utilParseAddPart_ok (by rw [hrep₁]) hset₂
      rw [modifyLast_append (by rw [hrep₂]), hrep₂, hrep₁]
      rfl

variable {text : List Char}

theorem parseText_ok {p p' : Parser} (hset : p.set.replica ≠ [])
    (h : parseText env p text = .ok p') : ∃ line, Takes text line ∧ Step env p line p' := by
  rw [parseText] at h
  split at h
  next hoption =>
    obtain ⟨rest, rfl⟩ := hoption
    split at h
    · cases h
    next set' hread =>
      cases h
      obtain ⟨flags, hflags, hset', hne⟩ := readOptionsLoop_ok hread
      subst hset'
      exact ⟨.option flags, .option (hne rfl) hflags, .option flags⟩
  next hoption =>
    split at h
    next hreplica =>
      obtain ⟨rest, rfl⟩ := hreplica
      cases rest with
      | nil =>
        rw [append_nil] at h ⊢
        split at h
        · rename_i heq
          cases heq
        · split at h
          next hparts =>
            split at h
            · cases h
            next set' hadd =>
              cases h
              rw [utilParseAddReplica_ok hadd]
              exact ⟨.replica, .replica, .replica hparts⟩
          · cases h
      | cons ch rest =>
        split at h
        next ch' hch =>
          obtain rfl : ch = ch' := Option.some.inj hch
          split at h
          · cases h
          next hblank =>
            split at h
            · cases h
            next rep hread =>
              split at h
              · cases h
              next set' hadd =>
                cases h
                obtain ⟨hwords, hdesc⟩ := parserReadReplica_ok hread
                rw [utilParseAddRemoteReplica_ok hadd]
                exact ⟨.remote rep, .remote (by simpa using hblank) hwords hdesc, .remote rep⟩
        next hnone => cases hnone
    next hreplica =>
      split at h
      · cases h
      next hlocal =>
        split at h
        · cases h
        next size path hread =>
          split at h
          · cases h
          next set' hadd =>
            cases h
            obtain ⟨str, hwords, habs, hsize, hpos⟩ := parserReadLine_ok hread
            obtain ⟨init, rep, hlast⟩ : ∃ init rep, p.set.replica = init ++ [rep] :=
              ⟨_, _, (dropLast_append_getLast hset).symm⟩
            obtain ⟨hlen, hset'⟩ := utilParseAddPart_ok hlast hadd
            rw [hlast, getLast?_concat] at hlocal
            rw [hset']
            exact ⟨.part size path, .part hoption hreplica hwords habs hsize hpos,
              .part hlast (by simpa using hlocal) hlen⟩

/-! ## What the parser takes a line for is what it says -/

theorem suffixes_scan {unit : List Char} {mag : Nat} (h : suffixes.lookup unit = some mag) :
    scanUnit unit = unit ∧ unit ≠ [] ∧ 0 < mag := by
  have hall : ∀ entry ∈ suffixes, scanUnit entry.1 = entry.1 ∧ entry.1 ≠ [] ∧ 0 < entry.2 := by
    decide
  obtain ⟨l₁, l₂, heq, -⟩ := lookup_eq_some_iff.mp h
  exact hall (unit, mag) (heq ▸ mem_append_right _ mem_cons_self)

variable {str : List Char}

theorem scanSize_digits (h : str.takeWhile Char.isDigit ≠ []) :
    scanSize str =
      some (if sizeMax < Nat.ofDigitChars 10 (str.takeWhile Char.isDigit) 0 then sizeMax
          else Nat.ofDigitChars 10 (str.takeWhile Char.isDigit) 0,
        str.drop (str.takeWhile Char.isDigit).length) := by
  cases str with
  | nil => exact (h rfl).elim
  | cons ch s =>
    have hch : ch.isDigit = true := by
      by_contra hch
      exact h (takeWhile_cons_of_neg hch)
    have hspace : isspace ch = false := by
      by_contra hspace
      rw [Bool.not_eq_false, isspace, Bool.or_eq_true, beq_iff_eq, Bool.and_eq_true,
        decide_eq_true_eq, decide_eq_true_eq] at hspace
      rw [Char.isDigit, Bool.and_eq_true, decide_eq_true_eq, decide_eq_true_eq] at hch
      have hlow : 48 ≤ ch.toNat := hch.1
      rcases hspace with rfl | hspace
      · exact absurd hlow (by decide)
      · omega
    have hsign : scanSign (ch :: s) = (false, ch :: s) := by
      rw [scanSign]
      · intro rest heq
        rw [(List.cons.inj heq).1] at hch
        exact absurd hch (by decide)
      · intro rest heq
        rw [(List.cons.inj heq).1] at hch
        exact absurd hch (by decide)
    rw [scanSize, dropWhile_cons_of_neg (by simp [hspace]), hsign]
    dsimp only
    rw [if_neg h, if_neg Bool.false_ne_true]

/-- A size that is written as a number is read exactly if it is below `2 ^ 64`. -/
theorem utilParseSize_iff {n : Nat} (h : utilParseSize str = some size)
    (hn : writtenSize str = some n) : size = n ↔ n < 2 ^ 64 := by
  rw [writtenSize] at hn
  split at hn
  · cases hn
  next hdigits =>
    rw [utilParseSize, scanSize_digits hdigits] at h
    generalize Nat.ofDigitChars 10 (str.takeWhile Char.isDigit) 0 = number at h hn
    dsimp only at h
    split at hn
    next hrest =>
      have hn := Option.some.inj hn
      have hunit : scanUnit [] = [] := rfl
      rw [hrest, hunit, if_pos rfl] at h
      have h : (if sizeMax < number then sizeMax else number) = size := Option.some.inj h
      rw [hn, sizeMax] at h
      split at h <;> omega
    next hrest =>
      obtain ⟨mag, hmag, hn⟩ := Option.map_eq_some_iff.mp hn
      obtain ⟨hscan, hne, hpos⟩ := suffixes_scan hmag
      rw [hscan, if_neg hne, hmag] at h
      have h : (if sizeMax < number then sizeMax else number) * mag % 2 ^ 64 = size :=
        Option.some.inj h
      have hle : number ≤ n := hn ▸ Nat.le_mul_of_pos_right number hpos
      rw [sizeMax] at h
      split at h
      · omega
      · rw [hn] at h
        omega

theorem mapM_optionFlag {names : List (List Char)} {flags : List OptionFlag}
    (h : names.map optionFlag = flags.map some) : names.mapM optionFlag = some flags := by
  induction names generalizing flags with
  | nil =>
    cases flags with
    | nil => rfl
    | cons flag flags => cases h
  | cons name names ih =>
    cases flags with
    | nil => cases h
    | cons flag flags =>
      obtain ⟨hflag, hflags⟩ := List.cons.inj h
      rw [mapM_cons, hflag, ih hflags]
      rfl

theorem forall_not_blank {word : List Char} (h : (word.all fun ch => !isblank ch) = true) :
    ∀ ch ∈ word, isblank ch = false := by
  intro ch hch
  simpa using all_eq_true.mp h ch hch

theorem wordsOf_option (rest : List Char) : wordsOf ("OPTION".toList ++ rest) =
    ("OPTION".toList ++ Words.head isblank rest) :: wordsOf (Words.tail isblank rest) :=
  Words.words_append (cons_ne_nil _ _) (forall_not_blank rfl) rest

theorem wordsOf_replica {ch : Char} (hch : isblank ch = true) (rest : List Char) :
    wordsOf ("REPLICA".toList ++ ch :: rest) = "REPLICA".toList :: wordsOf (ch :: rest) := by
  have hhead : Words.head isblank (ch :: rest) = [] := by simp [Words.head, hch]
  rw [wordsOf, Words.words_append (by decide) (forall_not_blank rfl),
    Words.words_of_head_nil hhead, hhead, append_nil, wordsOf]

theorem writtenSize_option (rest : List Char) : writtenSize ("OPTION".toList ++ rest) = none := rfl

/-- An option that is written behind the keyword without a blank says nothing. -/
theorem lineOf_option (h : Words.head isblank rest ≠ []) :
    lineOf ("OPTION".toList ++ rest) = none := by
  have hoption : "OPTION".toList ++ Words.head isblank rest ≠ "OPTION".toList :=
    fun heq => h (append_right_eq_self.mp heq)
  have hreplica : "OPTION".toList ++ Words.head isblank rest ≠ "REPLICA".toList :=
    fun heq => by cases heq
  rw [lineOf, wordsOf_option]
  dsimp only
  rw [if_neg hoption, if_neg hreplica, writtenSize_option]
  split
  · split <;> rfl
  · rfl

theorem lineOf_part {path : List Char} (h : wordsOf text = [str, path])
    (hpath : utilIsAbsolutePath path = true) (hsize : utilParseSize str = some size) :
    lineOf text = (writtenSize str).map fun size => .part size path := by
  have hoption : str ≠ "OPTION".toList := by
    rintro rfl
    cases hsize
  have hreplica : str ≠ "REPLICA".toList := by
    rintro rfl
    cases hsize
  rw [lineOf, h]
  dsimp only
  rw [if_neg hoption, if_neg hreplica, if_pos hpath]

theorem lineOf_option_of_head_nil {flags : List OptionFlag}
    (hhead : Words.head isblank rest = []) (hne : wordsOf rest ≠ [])
    (h : (wordsOf rest).map optionFlag = flags.map some) :
    lineOf ("OPTION".toList ++ rest) = some (.option flags) := by
  rw [lineOf, wordsOf_option, hhead, append_nil, wordsOf, Words.words_of_head_nil hhead, ← wordsOf]
  dsimp only
  rw [if_pos rfl, if_neg hne, mapM_optionFlag h]
  rfl

theorem lineOf_remote {ch : Char} {node desc : List Char} (hch : isblank ch = true)
    (h : wordsOf (ch :: rest) = [node, desc]) (hdesc : utilIsAbsolutePath desc = false) :
    lineOf ("REPLICA".toList ++ ch :: rest) = some (.remote ⟨node, desc⟩) := by
  rw [lineOf, wordsOf_replica hch, h]
  dsimp only
  rw [if_neg (by decide), if_pos rfl, hdesc]
  rfl

/-- The parser takes a line for what it says exactly if it is plain. -/
theorem Takes.lineOf_eq {line : Line} (h : Takes text line) :
    lineOf text = some line ↔ PlainText text := by
  cases h with
  | @option rest flags hne hflags =>
    have hprefix : "OPTION".toList <+: "OPTION".toList ++ rest := prefix_append _ _
    rw [PlainText, wordsOf_option, head?_cons]
    by_cases hhead : Words.head isblank rest = []
    · rw [lineOf_option_of_head_nil hhead hne hflags, hhead]
      exact ⟨fun _ => ⟨fun _ => rfl, fun hnot => (hnot hprefix).elim⟩, fun _ => rfl⟩
    · rw [lineOf_option hhead]
      refine ⟨fun heq => (Option.some_ne_none _ heq.symm).elim, fun hplain => ?_⟩
      have heq := Option.some.inj (hplain.1 hprefix)
      exact (hhead (append_right_eq_self.mp heq)).elim
  | replica =>
    exact ⟨fun _ => ⟨fun h => absurd h (by decide), fun _ h => absurd (prefix_refl _) h⟩,
      fun _ => rfl⟩
  | @remote ch rest node desc hch hwords hdesc =>
    have hprefix : "REPLICA".toList <+: "REPLICA".toList ++ ch :: rest := prefix_append _ _
    have hoption : ¬"OPTION".toList <+: "REPLICA".toList ++ ch :: rest := by
      rintro ⟨_, heq⟩
      cases heq
    exact ⟨fun _ => ⟨fun h => absurd h hoption, fun _ h => absurd hprefix h⟩,
      fun _ => lineOf_remote hch hwords hdesc⟩
  | @part _ str path size hoption hreplica hwords hpath hsize hpos =>
    rw [lineOf_part hwords hpath hsize, PlainText, hwords, head?_cons, Option.bind_some]
    constructor
    · intro heq
      obtain ⟨n, hn, hline⟩ := Option.map_eq_some_iff.mp heq
      obtain rfl : n = size := (Line.part.inj hline).1
      exact ⟨fun h => absurd h hoption, fun _ _ => ⟨n, hn, (utilParseSize_iff hsize hn).mp rfl⟩⟩
    · rintro ⟨-, h⟩
      obtain ⟨n, hn, hlt⟩ := h hoption hreplica
      rw [hn, (utilParseSize_iff hsize hn).mpr hlt]
      rfl

theorem Takes.lineOf_alike {line line' : Line} (h : Takes text line)
    (h' : lineOf text = some line') :
    line = line' ∨ ∃ size size' path, line = .part size path ∧ line' = .part size' path := by
  cases h with
  | @option rest flags hne hflags =>
    by_cases hhead : Words.head isblank rest = []
    · rw [lineOf_option_of_head_nil hhead hne hflags] at h'
      exact .inl (Option.some.inj h')
    · rw [lineOf_option hhead] at h'
      cases h'
  | replica => exact .inl (Option.some.inj h')
  | remote hch hwords hdesc =>
    rw [lineOf_remote hch hwords hdesc] at h'
    exact .inl (Option.some.inj h')
  | @part _ str path size hoption hreplica hwords hpath hsize hpos =>
    rw [lineOf_part hwords hpath hsize] at h'
    obtain ⟨size', -, rfl⟩ := Option.map_eq_some_iff.mp h'
    exact .inr ⟨size, size', path, rfl, rfl⟩

end Pmdk.Poolset
