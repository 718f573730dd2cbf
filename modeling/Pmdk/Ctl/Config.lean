import Pmdk.Ctl.Query

/-!
# Configuration texts of the control interface

A configuration is a list of write queries. All its parts are taken apart with `strtok_r`, which
knows no empty token: the empty parts of a text between two separators are not seen, and neither is
what `ctl_parse_args` leaves of the arguments.
-/

namespace Pmdk.Ctl

open Poolset (isspace)
open List

/-! ## Loading -/

def maxConfigFileLen : Nat := 2 ^ 20

/-- `ctl_parse_query`: the name and the value, and no third token. -/
def ctlParseQuery (qbuf : List Char) : Option (List Char × List Char) :=
  match strtok '=' qbuf with
  | [name, value] => some (name, value)
  | _ => none

structure Loaded (κ α σ : Type) where
  ret : Int
  calls : List (Call κ α)
  state : σ

variable {κ α σ χ : Type} (globalNodes : List (Node κ)) (ctl : Option (List (Node κ)))

section Load

variable (exec : Option χ → Call κ α → σ → Int × σ) (ctx : Option χ)

/-- What `ctl_query` returns, when it makes these calls. -/
def queryRet (calls : List (Call κ α)) (s : σ) : Int × σ :=
  match calls with
  | [] => (-1, s)
  | call :: _ => exec ctx call s

def loadLoop : List (List Char) → σ → Except Fault (Loaded κ α σ)
  | [], s => .ok ⟨0, [], s⟩
  | qbuf :: rest, s =>
    match ctlParseQuery qbuf with
    | none => .ok ⟨-1, [], s⟩
    | some (name, value) => do
      let calls ← ctlQuery globalNodes ctl name .write (.configInput (some value))
      let r := queryRet exec ctx calls s
      if r.1 < 0 ∧ ctx.isSome = true then .ok ⟨-1, calls, r.2⟩
      else do
        let loaded ← loadLoop rest r.2
        .ok { loaded with calls := calls ++ loaded.calls }

def ctlLoadConfig (buf : List Char) (s : σ) : Except Fault (Loaded κ α σ) :=
  loadLoop globalNodes ctl exec ctx (strtok ';' buf) s

def ctlLoadConfigFromString (cfgString : List Char) (s : σ) : Except Fault (Loaded κ α σ) :=
  ctlLoadConfig globalNodes ctl exec ctx cfgString s

/-- The loop of `ctl_load_config_from_file` over the characters of the file. -/
def sanitize : Bool → List Char → List Char
  | _, [] => []
  | isCommentSection, c :: cs =>
    if c = '#' then sanitize true cs
    else if c = '\n' then sanitize false cs
    else if !isCommentSection && !isspace c then c :: sanitize isCommentSection cs
    else sanitize isCommentSection cs

/-- `ctl_load_config_from_file` for a file with this content; the buffer is a string that ends at
its first NUL. -/
def ctlLoadConfigFromFile (content : List Char) (s : σ) : Except Fault (Loaded κ α σ) :=
  if maxConfigFileLen < content.length then .ok ⟨-1, [], s⟩
  else
    let buf := (sanitize false content).takeWhile (· ≠ '\x00')
    ctlLoadConfig globalNodes ctl exec ctx buf s

end Load

/-! ## What a text asks for -/

def argsOf (value : List Char) : List (List Char) :=
  if value = [] then [] else value.splitOnP (· == ',')

def parseExact : List ArgParser → List (List Char) → Option (List Field)
  | [], [] => some []
  | parser :: parsers, arg :: args =>
    if arg = [] then none
    else (parser arg).bind fun field => (parseExact parsers args).map (field :: ·)
  | _, _ => none

/-- The call for which an item asks: the item has one `=`, its name selects a leaf that can be
written, and its value has the arguments of that leaf. -/
def request (item : List Char) : Option (Call κ α) :=
  match item.splitOnP (· == '=') with
  | [name, value] =>
    if name = [] then none
    else (selected globalNodes ctl (strtok '.' name) .write).bind fun r =>
      (parseExact r.1.parsers (argsOf value)).map fun fields => ⟨r.2.1, .parsed fields, r.2.2⟩
  | _ => none

section Applied

variable (request : List Char → Option (Call κ α)) (exec : Call κ α → σ → Int × σ)

def applied : List (List Char) → σ → Loaded κ α σ
  | [], s => ⟨0, [], s⟩
  | item :: items, s =>
    match request item with
    | none => ⟨-1, [], s⟩
    | some call =>
      if (exec call s).1 < 0 then ⟨-1, [call], (exec call s).2⟩
      else
        let loaded := applied items (exec call s).2
        { loaded with calls := call :: loaded.calls }

def visited : List (List Char) → σ → List (List Char)
  | [], _ => []
  | item :: items, s =>
    item :: match request item with
      | none => []
      | some call => if (exec call s).1 < 0 then [] else visited items (exec call s).2

end Applied

/-- The text of a file without its comments, each from a `#` to the end of its line, and without
whitespace. -/
def stripped (content : List Char) : List Char :=
  ((content.splitOnP (· == '\n')).flatMap (·.takeWhile (· ≠ '#'))).filter (!isspace ·)

structure Unobstructed (names : List (List Char)) : Prop where
  inTrees : InTrees globalNodes ctl names
  numbers : ∀ c ∈ names, beginsNumber c = true → isNumber c = true
  global : select isNumber globalNodes names [] ≠ none →
    (select isNumber globalNodes names []).bind (callback .write) ≠ none

structure Plain (request : List Char → Option (Call κ α)) (item : List Char) : Prop where
  /-- A good item has a value, and a name that leads to its leaf. -/
  wellFormed : ∀ call, request item = some call → ∃ name value,
    item.splitOnP (· == '=') = [name, value] ∧ value ≠ [] ∧
      Unobstructed globalNodes ctl (strtok '.' name)
  /-- A malformed item is malformed even if empty parts between separators are left out, arguments
  behind the last parser are dropped, and components that begin with a number count as numbers. -/
  malformed : request item = none → ∀ name value, strtok '=' item = [name, value] →
    InTrees globalNodes ctl (strtok '.' name) ∧
    ∀ p leaf cb indexes, found beginsNumber globalNodes ctl (strtok '.' name) = some p →
      callback .write p = some (leaf, cb, indexes) →
        ctlParseArgs leaf.parsers (strtok ',' value) = none

/-! ## One item -/

variable {globalNodes ctl} {item name value : List Char} {call : Call κ α} {fields : List Field}

def itemCalls (globalNodes : List (Node κ)) (ctl : Option (List (Node κ))) (item : List Char) :
    Except Fault (List (Call κ α)) :=
  match ctlParseQuery item with
  | none => .ok []
  | some (name, value) => ctlQuery globalNodes ctl name .write (.configInput (some value))

theorem parseExact_ne_nil {parsers : List ArgParser} {args : List (List Char)}
    (h : parseExact parsers args = some fields) : ∀ arg ∈ args, arg ≠ [] := by
  induction parsers generalizing args fields with
  | nil =>
    cases args with
    | nil => exact fun _ harg => absurd harg not_mem_nil
    | cons arg args => exact absurd h nofun
  | cons parser parsers ih =>
    cases args with
    | nil => exact absurd h nofun
    | cons arg args =>
      rw [parseExact] at h
      split at h
      · exact absurd h nofun
      next harg =>
        obtain ⟨field, -, h⟩ := Option.bind_eq_some_iff.mp h
        obtain ⟨fields', h, -⟩ := Option.map_eq_some_iff.mp h
        exact forall_mem_cons.mpr ⟨harg, ih h⟩

theorem ctlParseArgs_of_parseExact {parsers : List ArgParser} {args : List (List Char)}
    (h : parseExact parsers args = some fields) : ctlParseArgs parsers args = some fields := by
  induction parsers generalizing args fields with
  | nil =>
    cases args with
    | nil => exact h
    | cons arg args => exact absurd h nofun
  | cons parser parsers ih =>
    cases args with
    | nil => exact absurd h nofun
    | cons arg args =>
      rw [parseExact] at h
      split at h
      · exact absurd h nofun
      · obtain ⟨field, hfield, h⟩ := Option.bind_eq_some_iff.mp h
        obtain ⟨fields', hfields, rfl⟩ := Option.map_eq_some_iff.mp h
        rw [ctlParseArgs, hfield, ih hfields]
        rfl

theorem ctlParseArgs_of_argsOf {parsers : List ArgParser} (hvalue : value ≠ [])
    (h : parseExact parsers (argsOf value) = some fields) :
    ctlParseArgs parsers (strtok ',' value) = some fields := by
  rw [argsOf, if_neg hvalue] at h
  have htokens : strtok ',' value = value.splitOnP (· == ',') :=
    filter_eq_self.mpr fun arg harg => decide_eq_true (parseExact_ne_nil h arg harg)
  rw [htokens]
  exact ctlParseArgs_of_parseExact h

theorem request_eq_some (h : request globalNodes ctl item = some call) :
    ∃ name value leaf fields, item.splitOnP (· == '=') = [name, value] ∧ name ≠ [] ∧
      selected globalNodes ctl (strtok '.' name) .write = some (leaf, call.cb, call.indexes) ∧
      parseExact leaf.parsers (argsOf value) = some fields ∧ call.arg = .parsed fields := by
  unfold request at h
  split at h
  next name value hsplit =>
    split at h
    · exact absurd h nofun
    next hname =>
      obtain ⟨⟨leaf, cb, indexes⟩, hselected, h⟩ := Option.bind_eq_some_iff.mp h
      obtain ⟨fields, hfields, rfl⟩ := Option.map_eq_some_iff.mp h
      exact ⟨name, value, leaf, fields, hsplit, hname, hselected, hfields, rfl⟩
  · exact absurd h nofun

theorem ctlParseQuery_of_split (hsplit : item.splitOnP (· == '=') = [name, value])
    (hname : name ≠ []) (hvalue : value ≠ []) : ctlParseQuery item = some (name, value) := by
  have htokens : strtok '=' item = [name, value] := by
    rw [strtok, Words.words, hsplit]
    simp [hname, hvalue]
  rw [ctlParseQuery, htokens]

theorem ctlParseQuery_of_no_value (hsplit : item.splitOnP (· == '=') = [name, []]) :
    ctlParseQuery item = none := by
  have htokens : strtok '=' item = [name].filter (· ≠ []) := by
    rw [strtok, Words.words, hsplit, filter_cons]
    simp [filter_cons]
  rw [ctlParseQuery, htokens]
  by_cases hname : name = []
  · simp [hname]
  · simp [hname]

variable {calls : List (Call κ α)}

theorem ctlQuery_length_le {type : QueryType} {source : Source α}
    (h : ctlQuery globalNodes ctl name type source = .ok calls) : calls.length ≤ 1 := by
  rw [ctlQuery_eq_of_inTrees (inTrees_of_ctlQuery h), Except.ok.injEq] at h
  subst h
  cases found beginsNumber globalNodes ctl (strtok '.' name) with
  | none => exact Nat.zero_le 1
  | some p =>
    rw [Option.map_some, Option.getD_some, callAt_eq]
    cases callback type p with
    | none => exact Nat.zero_le 1
    | some r =>
      dsimp only
      cases execArg r.1 type source with
      | none => exact Nat.zero_le 1
      | some arg => exact Nat.le_refl 1

theorem itemCalls_of_request (h : request globalNodes ctl item = some call) :
    itemCalls globalNodes ctl item = .ok [call] ↔
      ∃ name value, item.splitOnP (· == '=') = [name, value] ∧ value ≠ [] ∧
        Unobstructed globalNodes ctl (strtok '.' name) := by
  obtain ⟨name, value, leaf, fields, hsplit, hname, hselected, hfields, harg⟩ := request_eq_some h
  have hsplit' : ∀ name' value', item.splitOnP (· == '=') = [name', value'] →
      name = name' ∧ value = value' := by
    intro name' value' heq
    rw [hsplit] at heq
    exact ⟨(List.cons.inj heq).1, (List.cons.inj (List.cons.inj heq).2).1⟩
  by_cases hvalue : value = []
  · subst hvalue
    rw [itemCalls, ctlParseQuery_of_no_value hsplit]
    refine iff_of_false nofun ?_
    rintro ⟨name', value', heq, hne, -⟩
    exact hne (hsplit' name' value' heq).2.symm
  · have hargs := ctlParseArgs_of_argsOf hvalue hfields
    rw [itemCalls, ctlParseQuery_of_split hsplit hname hvalue]
    dsimp only
    constructor
    · intro hquery
      have hexact : Exact (fun _ => false) globalNodes ctl name .write
          (.configInput (some value) : Source α) := by
        refine ⟨[call], hquery, ?_, fun _ _ => nofun⟩
        rw [hselected]
        rfl
      have hlookable := hexact.lookable
      obtain ⟨hnumbers, hglobal, -, -⟩ := hlookable.called leaf call.cb call.indexes hselected
      exact ⟨name, value, hsplit, hvalue, hlookable.inTrees, hnumbers, hglobal⟩
    · rintro ⟨name', value', heq, -, hun⟩
      obtain ⟨rfl, rfl⟩ := hsplit' name' value' heq
      have hcallback := found_callback ctl hun.numbers hun.global
      rw [hselected] at hcallback
      obtain ⟨p, hfound, hcallback⟩ := Option.bind_eq_some_iff.mp hcallback
      rw [ctlQuery_eq_of_inTrees hun.inTrees, hfound, Option.map_some, Option.getD_some, callAt_eq,
        hcallback]
      dsimp only
      rw [execArg, Option.bind_some, hargs]
      cases call with
      | mk cb arg indexes =>
        dsimp only at harg
        rw [harg]
        rfl

theorem itemCalls_eq_nil :
    itemCalls (α := α) globalNodes ctl item = .ok [] ↔
      ∀ name value, strtok '=' item = [name, value] →
        InTrees globalNodes ctl (strtok '.' name) ∧
        ∀ p leaf cb indexes, found beginsNumber globalNodes ctl (strtok '.' name) = some p →
          callback .write p = some (leaf, cb, indexes) →
            ctlParseArgs leaf.parsers (strtok ',' value) = none := by
  unfold itemCalls ctlParseQuery
  split
  next hnone =>
    refine iff_of_true rfl fun name value heq => ?_
    rw [heq] at hnone
    exact absurd hnone nofun
  next name value hsome =>
    split at hsome
    next name' value' htokens =>
      obtain ⟨rfl, rfl⟩ := Prod.mk.inj (Option.some.inj hsome)
      constructor
      · intro hquery name value heq
        rw [htokens, List.cons.injEq, List.cons.injEq] at heq
        obtain ⟨rfl, rfl, -⟩ := heq
        have hin := inTrees_of_ctlQuery hquery
        refine ⟨hin, fun p leaf cb indexes hfound hcallback => ?_⟩
        rw [ctlQuery_eq_of_inTrees hin, Except.ok.injEq, hfound, Option.map_some,
          Option.getD_some, callAt_eq, hcallback] at hquery
        have hnone := Option.map_eq_none_iff.mp (Option.toList_eq_nil_iff.mp hquery)
        rw [execArg, Option.bind_some] at hnone
        exact Option.map_eq_none_iff.mp hnone
      · intro h
        obtain ⟨hin, hargs⟩ := h name' value' htokens
        rw [ctlQuery_eq_of_inTrees hin]
        cases hfound : found beginsNumber globalNodes ctl (strtok '.' name') with
        | none => rfl
        | some p =>
          rw [Option.map_some, Option.getD_some, callAt_eq]
          cases hcallback : callback .write p with
          | none => rfl
          | some r =>
            dsimp only
            rw [execArg, Option.bind_some, hargs p r.1 r.2.1 r.2.2 hfound hcallback]
            rfl
    · exact absurd hsome nofun

theorem itemCalls_eq_iff (globalNodes : List (Node κ)) (ctl : Option (List (Node κ)))
    (item : List Char) :
    itemCalls (α := α) globalNodes ctl item = .ok (request globalNodes ctl item).toList ↔
      Plain globalNodes ctl (request (α := α) globalNodes ctl) item := by
  cases hrequest : request (α := α) globalNodes ctl item with
  | none =>
    rw [Option.toList_none, itemCalls_eq_nil]
    refine ⟨fun h => ⟨fun call hcall => ?_, fun _ => h⟩, fun h => h.malformed hrequest⟩
    rw [hrequest] at hcall
    exact absurd hcall nofun
  | some call =>
    rw [Option.toList_some, itemCalls_of_request hrequest]
    refine ⟨fun h => ⟨fun _ _ => h, fun hnone => ?_⟩, fun h => h.wellFormed call hrequest⟩
    rw [hrequest] at hnone
    exact absurd hnone nofun

/-! ## All items -/

variable {exec : Option χ → Call κ α → σ → Int × σ} {ctx : χ} {items : List (List Char)} {s : σ}

theorem itemCalls_length_le
    (h : itemCalls globalNodes ctl item = .ok calls) : calls.length ≤ 1 := by
  unfold itemCalls at h
  split at h
  · obtain rfl := Except.ok.inj h
    exact Nat.zero_le 1
  · exact ctlQuery_length_le h

theorem loadLoop_cons (item : List Char) :
    loadLoop globalNodes ctl exec (some ctx) (item :: items) s =
      (itemCalls globalNodes ctl item).bind fun calls =>
        if (queryRet exec (some ctx) calls s).1 < 0 then
          .ok ⟨-1, calls, (queryRet exec (some ctx) calls s).2⟩ else
          (loadLoop globalNodes ctl exec (some ctx) items (queryRet exec (some ctx) calls s).2).map
            fun loaded => { loaded with calls := calls ++ loaded.calls } := by
  rw [loadLoop, itemCalls]
  cases ctlParseQuery item with
  | none => rfl
  | some r =>
    dsimp only
    refine congrArg (Except.bind _) (funext fun calls => ?_)
    refine if_congr (and_iff_left rfl) rfl ?_
    cases loadLoop globalNodes ctl exec (some ctx) items (queryRet exec (some ctx) calls s).2 <;>
      rfl

theorem calls_isPrefix {loaded : Loaded κ α σ}
    (h : (if (queryRet exec (some ctx) calls s).1 < 0 then
          .ok ⟨-1, calls, (queryRet exec (some ctx) calls s).2⟩ else
          (loadLoop globalNodes ctl exec (some ctx) items (queryRet exec (some ctx) calls s).2).map
            fun loaded => { loaded with calls := calls ++ loaded.calls }) = .ok loaded) :
    calls <+: loaded.calls := by
  split at h
  · obtain rfl := Except.ok.inj h
    exact prefix_refl calls
  · cases hrest : loadLoop globalNodes ctl exec (some ctx) items
        (queryRet exec (some ctx) calls s).2 with
    | error e =>
      rw [hrest] at h
      exact absurd h nofun
    | ok rest =>
      rw [hrest] at h
      obtain rfl := Except.ok.inj h
      exact prefix_append calls rest.calls

theorem map_append_eq_ok {r : Except Fault (Loaded κ α σ)} {loaded : Loaded κ α σ} :
    r.map (fun loaded => { loaded with calls := calls ++ loaded.calls }) =
        .ok { loaded with calls := calls ++ loaded.calls } ↔ r = .ok loaded := by
  cases r with
  | error e => exact iff_of_false nofun nofun
  | ok loaded' =>
    obtain ⟨ret, calls', state⟩ := loaded
    obtain ⟨ret', calls'', state'⟩ := loaded'
    rw [Except.map]
    simp

/-- The loop does what the items ask for, if and only if it takes each one that it comes to for what
it is. -/
theorem loadLoop_eq_iff (exec : Option χ → Call κ α → σ → Int × σ) (ctx : χ)
    (items : List (List Char)) (s : σ) :
    loadLoop globalNodes ctl exec (some ctx) items s =
        .ok (applied (request globalNodes ctl) (exec (some ctx)) items s) ↔
      ∀ item ∈ visited (request globalNodes ctl) (exec (some ctx)) items s,
        Plain globalNodes ctl (request (α := α) globalNodes ctl) item := by
  induction items generalizing s with
  | nil => exact iff_of_true rfl fun _ h => absurd h not_mem_nil
  | cons item items ih =>
    rw [applied, visited, forall_mem_cons, ← itemCalls_eq_iff, loadLoop_cons]
    cases hcalls : itemCalls (α := α) globalNodes ctl item with
    | error e => exact iff_of_false nofun fun h => absurd h.1 nofun
    | ok calls =>
      have hlength := itemCalls_length_le hcalls
      rw [Except.bind, Except.ok.injEq]
      cases request (α := α) globalNodes ctl item with
      | none =>
        constructor
        · intro h
          exact ⟨prefix_nil.mp (calls_isPrefix h), fun _ h => absurd h not_mem_nil⟩
        · rintro ⟨rfl, -⟩
          rfl
      | some call =>
        dsimp only
        by_cases hcall : calls = [call]
        · rw [hcall, Option.toList_some, and_iff_right rfl, queryRet]
          by_cases hret : (exec (some ctx) call s).1 < 0
          · rw [if_pos hret, if_pos hret, if_pos hret]
            exact iff_of_true rfl fun _ h => absurd h not_mem_nil
          · rw [if_neg hret, if_neg hret, if_neg hret, ← ih]
            exact map_append_eq_ok
        · refine iff_of_false (fun h => hcall ?_) fun h => hcall h.1
          have hhead : ∃ rest, (if (exec (some ctx) call s).1 < 0 then
                (⟨-1, [call], (exec (some ctx) call s).2⟩ : Loaded κ α σ)
              else
                let loaded := applied (request globalNodes ctl) (exec (some ctx)) items
                  (exec (some ctx) call s).2
                { loaded with calls := call :: loaded.calls }).calls = call :: rest := by
            split <;> exact ⟨_, rfl⟩
          obtain ⟨rest, hrest⟩ := hhead
          have hprefix := calls_isPrefix h
          rw [hrest] at hprefix
          cases calls with
          | nil =>
            have hnil := congrArg Loaded.calls (Except.ok.inj h)
            rw [hrest] at hnil
            exact absurd hnil nofun
          | cons call' calls =>
            obtain ⟨rfl, -⟩ := cons_prefix_cons.mp hprefix
            rw [length_eq_zero_iff.mp (Nat.le_zero.mp (Nat.le_of_succ_le_succ hlength))]

/-! ## Files -/

def keptOf (lines : List (List Char)) : List Char :=
  (lines.flatMap (·.takeWhile (· ≠ '#'))).filter (!isspace ·)

theorem keptOf_cons (line : List Char) (lines : List (List Char)) :
    keptOf (line :: lines) = (line.takeWhile (· ≠ '#')).filter (!isspace ·) ++ keptOf lines := by
  rw [keptOf, flatMap_cons, filter_append]
  rfl

theorem sanitize_eq (content : List Char) :
    sanitize false content = keptOf (content.splitOnP (· == '\n')) ∧
    sanitize true content = keptOf (content.splitOnP (· == '\n')).tail := by
  induction content with
  | nil => exact ⟨rfl, rfl⟩
  | cons c content ih =>
    rw [splitOnP_cons_eq_if_modifyHead]
    by_cases hnewline : c = '\n'
    · rw [hnewline, if_pos (beq_self_eq_true '\n'), keptOf_cons]
      exact ⟨ih.1, ih.1⟩
    · obtain ⟨line, lines, hlines⟩ := exists_cons_of_ne_nil (splitOnP_ne_nil (· == '\n') content)
      rw [hlines, keptOf_cons, tail_cons] at ih
      rw [if_neg (by simpa using hnewline), hlines, modifyHead_cons, tail_cons,
        keptOf_cons, sanitize, sanitize, if_neg hnewline, if_neg hnewline]
      by_cases hcomment : c = '#'
      · rw [if_pos hcomment, if_pos hcomment, hcomment, takeWhile_cons_of_neg (by decide)]
        exact ⟨ih.2, ih.2⟩
      · rw [if_neg hcomment, if_neg hcomment, takeWhile_cons_of_pos (by simpa using hcomment),
          filter_cons, ih.1, ih.2]
        cases isspace c <;> exact ⟨rfl, rfl⟩

theorem mem_of_mem_sanitize {isCommentSection : Bool} {c : Char} {content : List Char}
    (h : c ∈ sanitize isCommentSection content) : c ∈ content := by
  induction content generalizing isCommentSection with
  | nil => exact h
  | cons c' content ih =>
    rw [sanitize] at h
    split at h
    · exact mem_cons_of_mem c' (ih h)
    · split at h
      · exact mem_cons_of_mem c' (ih h)
      · split at h
        · rcases mem_cons.mp h with rfl | h
          · exact mem_cons_self
          · exact mem_cons_of_mem c' (ih h)
        · exact mem_cons_of_mem c' (ih h)

/-- A text is applied exactly if each item up to the first bad one is taken for what it is; and a
file is applied as its text without comments and whitespace. -/
theorem ctlLoadConfig_exact_iff (globalNodes : List (Node κ)) (ctl : Option (List (Node κ)))
    (exec : Option χ → Call κ α → σ → Int × σ) (ctx : χ) (s : σ) (cfgString content : List Char)
    (hnul : '\x00' ∉ content) (hlen : content.length ≤ maxConfigFileLen) :
    (ctlLoadConfigFromString globalNodes ctl exec (some ctx) cfgString s =
        .ok (applied (request globalNodes ctl) (exec (some ctx))
          (Words.words (· == ';') cfgString) s) ↔
      ∀ item ∈ visited (request globalNodes ctl) (exec (some ctx))
          (Words.words (· == ';') cfgString) s,
        Plain globalNodes ctl (request (α := α) globalNodes ctl) item) ∧
    ctlLoadConfigFromFile globalNodes ctl exec (some ctx) content s =
      ctlLoadConfigFromString globalNodes ctl exec (some ctx) (stripped content) s := by
  refine ⟨loadLoop_eq_iff exec ctx _ s, ?_⟩
  have hsanitize : sanitize false content = stripped content := (sanitize_eq content).1
  have hkeep : (stripped content).takeWhile (· ≠ '\x00') = stripped content := by
    refine List.takeWhile_eq_self_iff.mpr fun c hc => decide_eq_true fun hzero => hnul ?_
    exact hzero ▸ mem_of_mem_sanitize (hsanitize ▸ hc)
  rw [ctlLoadConfigFromFile, if_neg (Nat.not_lt.mpr hlen), hsanitize, hkeep]
  rfl

/-! ## The grow size -/

/-- `CTL_WRITE_HANDLER(granularity)`, which reads an `int` of its argument. -/
def granularity {α : Type} : Call HeapHandler α → Int → Int × Int
  | ⟨.granularityWrite, .parsed [.int val], _⟩, growsize =>
    let argIn := val.bmod (2 ^ 32)
    if argIn ≠ 0 ∧ argIn < 2097152 then (-1, growsize) else (0, argIn)
  | _, growsize => (-1, growsize)

def growText : List Char := "heap.size.granularity=4194304;".toList

/-- The comment and the blanks do not matter, and the grow size is set. -/
theorem ctlLoadConfig_exact_comment :
    ctlLoadConfigFromFile (α := Unit) [] (some heapRoot) (fun _ => granularity) (some ())
        "heap.size.granularity = 4194304; # grow\n".toList 0 =
      ctlLoadConfigFromString [] (some heapRoot) (fun _ => granularity) (some ()) growText 0 ∧
    (ctlLoadConfigFromString (α := Unit) [] (some heapRoot) (fun _ => granularity) (some ())
      growText 0).map (fun loaded => (loaded.ret, loaded.state)) = .ok (0, 4194304) ∧
    ∀ item ∈ visited (request [] (some heapRoot)) (granularity (α := Unit))
        (Words.words (· == ';') growText) 0,
      Plain [] (some heapRoot) (request (α := Unit) [] (some heapRoot)) item := by
  obtain ⟨hiff, hfile⟩ := ctlLoadConfig_exact_iff (α := Unit) [] (some heapRoot)
    (fun _ => granularity) () 0 growText "heap.size.granularity = 4194304; # grow\n".toList
    (by decide) (by decide)
  exact ⟨hfile, by decide, hiff.mp rfl⟩

/-- The value must not include a `=`, but the second one is merged with the first; and the second
argument is not looked at. -/
theorem heapRoot_not_applied :
    ctlLoadConfigFromString (α := Unit) [] (some heapRoot) (fun _ => granularity) (some ())
        "heap.size.granularity==4194304".toList 0 ≠
      .ok (applied (request [] (some heapRoot)) granularity
        (Words.words (· == ';') "heap.size.granularity==4194304".toList) 0) ∧
    ctlLoadConfigFromString (α := Unit) [] (some heapRoot) (fun _ => granularity) (some ())
        "heap.size.granularity=4194304,x".toList 0 ≠
      .ok (applied (request [] (some heapRoot)) granularity
        (Words.words (· == ';') "heap.size.granularity=4194304,x".toList) 0) := by
  constructor
  · intro h
    exact absurd (congrArg (Except.map Loaded.state) h) (by decide)
  · intro h
    exact absurd (congrArg (Except.map Loaded.state) h) (by decide)

end Pmdk.Ctl
