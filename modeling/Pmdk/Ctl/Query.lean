import Pmdk.Pool.PoolsetParse

/-!
# Names in the tree of the control interface

`ctl_query` walks the components of a name from the global root, and if nothing is found there from
the root of the pool. A component that begins with a number is an index for the first indexed node,
and any other one is a name, of an indexed node as well. A leaf has no children, and the walk does
not look whether it is at one: a component behind a leaf is looked for in the array `NULL`.
-/

namespace Pmdk.Ctl

open Poolset (isspace scanSign)
open List

/-! ## Numbers -/

def digitVal (c : Char) : Nat :=
  if c.isDigit then c.toNat - 48
  else if c.isLower then c.toNat - 87
  else if c.isUpper then c.toNat - 55
  else 36

/-- The base that `strtol` finds out, and where the digits begin. -/
def strtolBase : List Char → Nat × List Char
  | '0' :: x :: d :: s =>
    if (x = 'x' ∨ x = 'X') ∧ digitVal d < 16 then (16, d :: s) else (8, '0' :: x :: d :: s)
  | '0' :: s => (8, '0' :: s)
  | s => (10, s)

/-- The number that `strtol(str, &endptr, 0)` reads, before it is bounded, with what is left. -/
def strtolScan (str : List Char) : Option (Int × List Char) :=
  let (negative, s) := scanSign (str.dropWhile isspace)
  let (base, s) := strtolBase s
  let digits := s.takeWhile (digitVal · < base)
  if digits = [] then none
  else
    let n : Int := digits.foldl (fun n c => base * n + digitVal c) 0
    some (if negative then -n else n, s.drop digits.length)

/-- `strtol`, with `LONG_MIN` and `LONG_MAX` as the bounds. -/
def strtol (str : List Char) : Option Int :=
  (strtolScan str).map fun r => max (-2 ^ 63) (min r.1 (2 ^ 63 - 1))

def beginsNumber (c : List Char) : Bool := (strtolScan c).isSome

def isNumber (c : List Char) : Bool := (strtolScan c).any (·.2 = [])

def strtok (delim : Char) (s : List Char) : List (List Char) := Words.words (· == delim) s

/-! ## The tree -/

inductive QueryType
  | read
  | write
  | runnable
  deriving DecidableEq

inductive Field
  | int (val : Int)
  | string (s : List Char)
  deriving DecidableEq

abbrev ArgParser := List Char → Option Field

/-- The macros `CTL_LEAF_*`: the callbacks, and the parsers of the argument that is written. -/
inductive Leaf (κ : Type)
  | ro (read : κ)
  | wo (write : κ) (arg : List ArgParser)
  | run (runnable : κ)
  | rw (read write : κ) (arg : List ArgParser)

def Leaf.cb {κ : Type} : Leaf κ → QueryType → Option κ
  | ro k, .read => some k
  | wo k _, .write => some k
  | run k, .runnable => some k
  | rw k _ _, .read => some k
  | rw _ k _, .write => some k
  | _, _ => none

def Leaf.parsers {κ : Type} : Leaf κ → List ArgParser
  | wo _ arg => arg
  | rw _ _ arg => arg
  | _ => []

/-- `struct ctl_node`: a leaf has no children, and `CTL_CHILD` and `CTL_INDEXED` have an array. -/
inductive Node (κ : Type)
  | leaf (name : List Char) (leaf : Leaf κ)
  | child (name : List Char) (children : List (Node κ))
  | indexed (name : List Char) (children : List (Node κ))

variable {κ α : Type}

namespace Node

def name : Node κ → List Char
  | leaf name _ => name
  | child name _ => name
  | indexed name _ => name

def isIndexed : Node κ → Bool
  | indexed _ _ => true
  | _ => false

def children : Node κ → Option (List (Node κ))
  | leaf _ _ => none
  | child _ nodes => some nodes
  | indexed _ nodes => some nodes

end Node

structure Index where
  name : List Char
  value : Int
  deriving DecidableEq

/-- A read through the children `NULL` of a leaf. -/
inductive Fault
  | nullChildren
  deriving DecidableEq

/-! ## Queries -/

def findLoop : Option (List (Node κ)) → List (List Char) → Option (Node κ) → List Index →
    Except Fault (Option (Node κ × List Index))
  | _, [], n, indexes => .ok (n.map fun n => (n, indexes))
  | none, _ :: _, _, _ => .error .nullChildren
  | some nodes, nodeName :: names, _, indexes =>
    let indexValue := strtol nodeName
    match nodes.find? fun n => indexValue.isSome && n.isIndexed || n.name == nodeName with
    | none => .ok none
    | some n =>
      findLoop n.children names (some n)
        ((indexValue.map fun value => ⟨n.name, value⟩).toList ++ indexes)

def ctlFindNode (nodes : List (Node κ)) (name : List Char) :
    Except Fault (Option (Node κ × List Index)) :=
  findLoop (some nodes) (strtok '.' name) none []

/-- The source of a query with its argument, which may be `NULL`. -/
inductive Source (α : Type)
  | programmatic (arg : Option α)
  | configInput (arg : Option (List Char))

inductive RealArg (α : Type)
  | pointer (arg : Option α)
  | text (arg : Option (List Char))
  | parsed (fields : List Field)

/-- The loop of `ctl_parse_args`; what is left of the arguments is not looked at. -/
def ctlParseArgs : List ArgParser → List (List Char) → Option (List Field)
  | [], _ => some []
  | _ :: _, [] => none
  | parser :: parsers, arg :: args => do
    let field ← parser arg
    let fields ← ctlParseArgs parsers args
    some (field :: fields)

structure Call (κ α : Type) where
  cb : κ
  arg : RealArg α
  indexes : List Index

/-- `ctl_exec_query`: the argument of the callback, or nothing if it is not called. -/
def execArg (leaf : Leaf κ) : QueryType → Source α → Option (RealArg α)
  | .read, .programmatic arg => arg.map fun a => .pointer (some a)
  | .read, .configInput arg => arg.map fun s => .text (some s)
  | .write, .programmatic arg => arg.map fun a => .pointer (some a)
  | .write, .configInput arg =>
    arg.bind fun s => (ctlParseArgs leaf.parsers (strtok ',' s)).map .parsed
  | .runnable, .programmatic arg => some (.pointer arg)
  | .runnable, .configInput arg => some (.text arg)

def callAt (type : QueryType) (source : Source α) : Node κ × List Index → List (Call κ α)
  | (.leaf _ leaf, indexes) =>
    match leaf.cb type, execArg leaf type source with
    | some cb, some arg => [⟨cb, arg, indexes⟩]
    | _, _ => []
  | _ => []

def ctlQuery (globalNodes : List (Node κ)) (ctl : Option (List (Node κ))) (name : List Char)
    (type : QueryType) (source : Source α) : Except Fault (List (Call κ α)) := do
  let n ← ctlFindNode globalNodes name
  let n ← match n, ctl with
    | none, some root => ctlFindNode root name
    | n, _ => .ok n
  .ok ((n.map (callAt type source)).getD [])

/-! ## What a name selects -/

/-- The entry of an array that a component selects, when `num` tells the numbers. -/
def entry (num : List Char → Bool) (nodes : List (Node κ)) (c : List Char) : Option (Node κ) :=
  nodes.find? fun n => num c && n.isIndexed || n.name == c

def indexOf (num : List Char → Bool) (n : Node κ) (c : List Char) : List Index :=
  if num c then [⟨n.name, (strtol c).getD 0⟩] else []

def select (num : List Char → Bool) : List (Node κ) → List (List Char) → List Index →
    Option (Node κ × List Index)
  | _, [], _ => none
  | nodes, [c], indexes => (entry num nodes c).map fun n => (n, indexOf num n c ++ indexes)
  | nodes, c :: cs, indexes =>
    (entry num nodes c).bind fun n =>
      n.children.bind fun nodes => select num nodes cs (indexOf num n c ++ indexes)

def PastLeaf (num : List Char → Bool) : List (Node κ) → List (List Char) → Prop
  | _, [] => False
  | _, [_] => False
  | nodes, c :: cs => ∃ n, entry num nodes c = some n ∧
      match n.children with
      | none => True
      | some nodes => PastLeaf num nodes cs

def callback (type : QueryType) : Node κ × List Index → Option (Leaf κ × κ × List Index)
  | (.leaf _ leaf, indexes) => (leaf.cb type).map fun cb => (leaf, cb, indexes)
  | _ => none

def selected (globalNodes : List (Node κ)) (ctl : Option (List (Node κ)))
    (names : List (List Char)) (type : QueryType) : Option (Leaf κ × κ × List Index) :=
  ((select isNumber globalNodes names []).bind (callback type)).or
    (ctl.bind fun root => (select isNumber root names []).bind (callback type))

/-! ## The walk finds what is selected -/

variable {num num' : List Char → Bool} {nodes globalNodes : List (Node κ)}
  {ctl : Option (List (Node κ))} {c : List Char} {cs names : List (List Char)} {n : Node κ}
  {indexes : List Index} {type : QueryType} {source : Source α} {name : List Char}

theorem isNumber_beginsNumber (h : isNumber c = true) : beginsNumber c = true := by
  obtain ⟨r, hr, -⟩ := (Option.any_eq_true _ _).mp h
  rw [beginsNumber, hr]
  rfl

theorem strtol_isSome (c : List Char) : (strtol c).isSome = beginsNumber c :=
  Option.isSome_map

theorem find_eq_entry (nodes : List (Node κ)) (c : List Char) :
    (nodes.find? fun n => (strtol c).isSome && n.isIndexed || n.name == c) =
      entry beginsNumber nodes c := by
  rw [entry, strtol_isSome]

theorem index_eq_indexOf (n : Node κ) (c : List Char) :
    ((strtol c).map fun value => (⟨n.name, value⟩ : Index)).toList = indexOf beginsNumber n c := by
  have hsome := strtol_isSome c
  unfold indexOf
  cases hc : strtol c with
  | none =>
    rw [hc, Option.isSome_none] at hsome
    rw [← hsome]
    rfl
  | some value =>
    rw [hc, Option.isSome_some] at hsome
    rw [← hsome]
    rfl

theorem findLoop_cons (nodes : List (Node κ)) (c : List Char) (cs : List (List Char))
    (prev : Option (Node κ)) (indexes : List Index) :
    findLoop (some nodes) (c :: cs) prev indexes = match entry beginsNumber nodes c with
      | none => .ok none
      | some n => findLoop n.children cs (some n) (indexOf beginsNumber n c ++ indexes) := by
  rw [findLoop, find_eq_entry]
  cases entry beginsNumber nodes c with
  | none => rfl
  | some n =>
    exact congrArg (findLoop n.children cs (some n) <| · ++ indexes) (index_eq_indexOf n c)

theorem select_cons_cons (c' : List Char) : select num nodes (c :: c' :: cs) indexes =
    (entry num nodes c).bind fun n =>
      n.children.bind fun nodes => select num nodes (c' :: cs) (indexOf num n c ++ indexes) := rfl

theorem pastLeaf_cons_cons (c' : List Char) : PastLeaf num nodes (c :: c' :: cs) ↔
    ∃ n, entry num nodes c = some n ∧
      ∀ nodes, n.children = some nodes → PastLeaf num nodes (c' :: cs) := by
  rw [PastLeaf]
  · refine exists_congr fun n => and_congr_right fun _ => ?_
    cases n.children with
    | none => exact iff_of_true trivial nofun
    | some nodes => exact ⟨fun h _ heq => Option.some_inj.mp heq ▸ h, fun h => h _ rfl⟩
  · exact cons_ne_nil _ _

/-- The loop goes wrong behind a leaf, and otherwise it finds the node that is selected. -/
theorem findLoop_eq (nodes : List (Node κ)) (c : List Char) (cs : List (List Char))
    (prev : Option (Node κ)) (indexes : List Index) :
    (PastLeaf beginsNumber nodes (c :: cs) →
      findLoop (some nodes) (c :: cs) prev indexes = .error .nullChildren) ∧
    (¬PastLeaf beginsNumber nodes (c :: cs) →
      findLoop (some nodes) (c :: cs) prev indexes =
        .ok (select beginsNumber nodes (c :: cs) indexes)) := by
  induction cs generalizing nodes c prev indexes with
  | nil =>
    refine ⟨fun h => h.elim, fun _ => ?_⟩
    rw [findLoop_cons, select]
    cases entry beginsNumber nodes c with
    | none => rfl
    | some n => exact findLoop.eq_1 _ _ _
  | cons c' cs ih =>
    rw [findLoop_cons, pastLeaf_cons_cons, select_cons_cons]
    cases entry beginsNumber nodes c with
    | none => exact ⟨fun ⟨n, hn, _⟩ => absurd hn nofun, fun _ => rfl⟩
    | some n =>
      rw [Option.bind_some]
      dsimp only
      cases hchildren : n.children with
      | none =>
        exact ⟨fun _ => rfl, fun h => absurd ⟨n, rfl, fun _ h => absurd (hchildren ▸ h) nofun⟩ h⟩
      | some nodes' =>
        have hstep := ih nodes' c' (some n) (indexOf beginsNumber n c ++ indexes)
        refine ⟨fun ⟨n', hn', hpast⟩ => ?_, fun h => hstep.2 fun hpast => h ⟨n, rfl, ?_⟩⟩
        · obtain rfl := Option.some_inj.mp hn'
          exact hstep.1 (hpast nodes' hchildren)
        · intro nodes'' heq
          rw [hchildren, Option.some_inj] at heq
          exact heq ▸ hpast

theorem ctlFindNode_eq (nodes : List (Node κ)) (name : List Char) :
    (PastLeaf beginsNumber nodes (strtok '.' name) →
      ctlFindNode nodes name = .error .nullChildren) ∧
    (¬PastLeaf beginsNumber nodes (strtok '.' name) →
      ctlFindNode nodes name = .ok (select beginsNumber nodes (strtok '.' name) [])) := by
  rw [ctlFindNode]
  cases strtok '.' name with
  | nil => exact ⟨fun h => h.elim, fun _ => by rw [findLoop]; rfl⟩
  | cons c cs => exact findLoop_eq nodes c cs none []

def found (num : List Char → Bool) (globalNodes : List (Node κ)) (ctl : Option (List (Node κ)))
    (names : List (List Char)) : Option (Node κ × List Index) :=
  (select num globalNodes names []).or (ctl.bind fun root => select num root names [])

structure InTrees (globalNodes : List (Node κ)) (ctl : Option (List (Node κ)))
    (names : List (List Char)) : Prop where
  global : ¬PastLeaf beginsNumber globalNodes names
  root : select beginsNumber globalNodes names [] = none →
    ∀ root, ctl = some root → ¬PastLeaf beginsNumber root names

theorem ctlQuery_eq_of_inTrees (h : InTrees globalNodes ctl (strtok '.' name)) :
    ctlQuery globalNodes ctl name type source =
      .ok (((found beginsNumber globalNodes ctl (strtok '.' name)).map (callAt type source)).getD
        []) := by
  unfold ctlQuery found
  rw [(ctlFindNode_eq globalNodes name).2 h.global]
  cases hglobal : select beginsNumber globalNodes (strtok '.' name) [] with
  | some n => rfl
  | none =>
    cases hctl : ctl with
    | none => rfl
    | some root =>
      have hroot := (ctlFindNode_eq root name).2 (h.root hglobal root hctl)
      change ((ctlFindNode root name) >>= fun n => Except.ok _) = _
      rw [hroot]
      rfl

theorem inTrees_of_ctlQuery {calls : List (Call κ α)}
    (h : ctlQuery globalNodes ctl name type source = .ok calls) :
    InTrees globalNodes ctl (strtok '.' name) := by
  have hglobal : ¬PastLeaf beginsNumber globalNodes (strtok '.' name) := by
    intro hpast
    rw [ctlQuery, (ctlFindNode_eq globalNodes name).1 hpast] at h
    exact absurd h nofun
  refine ⟨hglobal, fun hnone root hctl hpast => ?_⟩
  rw [ctlQuery, (ctlFindNode_eq globalNodes name).2 hglobal, hnone, hctl] at h
  change ((ctlFindNode root name) >>= fun n => Except.ok _) = _ at h
  rw [(ctlFindNode_eq root name).1 hpast] at h
  exact absurd h nofun

/-! ## When the right callback is called -/

theorem select_congr (h : ∀ c ∈ cs, num c = num' c) :
    select num nodes cs indexes = select num' nodes cs indexes := by
  have hentry : ∀ c, num c = num' c → ∀ nodes : List (Node κ),
      entry num nodes c = entry num' nodes c ∧
        ∀ n : Node κ, indexOf num n c = indexOf num' n c := by
    intro c hc nodes
    unfold entry indexOf
    rw [hc]
    exact ⟨rfl, fun _ => rfl⟩
  induction cs generalizing nodes indexes with
  | nil => rfl
  | cons c cs ih =>
    rw [forall_mem_cons] at h
    obtain ⟨hfind, hindex⟩ := hentry c h.1 nodes
    cases cs with
    | nil =>
      rw [select, select, hfind]
      exact congrArg (Option.map · _) (funext fun n => by rw [hindex n])
    | cons c' cs =>
      rw [select_cons_cons, select_cons_cons, hfind]
      refine congrArg (Option.bind _) (funext fun n => ?_)
      rw [hindex n]
      exact congrArg (Option.bind _) (funext fun nodes => ih h.2)

theorem select_length {indexes' : List Index}
    (h : select num nodes cs indexes = some (n, indexes')) :
    indexes'.length = indexes.length + cs.countP num := by
  have hindex : ∀ (n : Node κ) c, (indexOf num n c).length = if num c then 1 else 0 := by
    intro n c
    unfold indexOf
    split
    · rfl
    · rfl
  induction cs generalizing nodes indexes with
  | nil => exact absurd h nofun
  | cons c cs ih =>
    rw [countP_cons]
    cases cs with
    | nil =>
      obtain ⟨n', -, heq⟩ := Option.map_eq_some_iff.mp h
      obtain ⟨rfl, rfl⟩ := Prod.mk.inj heq
      rw [length_append, hindex, countP_nil]
      omega
    | cons c' cs =>
      obtain ⟨n', -, h⟩ := Option.bind_eq_some_iff.mp h
      obtain ⟨nodes', -, h⟩ := Option.bind_eq_some_iff.mp h
      rw [ih h, length_append, hindex]
      omega

theorem found_length (h : found num globalNodes ctl names = some (n, indexes)) :
    indexes.length = names.countP num := by
  unfold found at h
  rcases Option.or_eq_some_iff.mp h with h | ⟨-, h⟩
  · rw [select_length h, length_nil, Nat.zero_add]
  · obtain ⟨root, -, h⟩ := Option.bind_eq_some_iff.mp h
    rw [select_length h, length_nil, Nat.zero_add]

theorem callback_indexes {indexes' : List Index} {leaf : Leaf κ} {cb : κ}
    (h : callback type (n, indexes') = some (leaf, cb, indexes)) : indexes' = indexes := by
  cases n with
  | leaf name leaf' =>
    obtain ⟨cb', -, heq⟩ := Option.map_eq_some_iff.mp h
    exact (Prod.ext_iff.mp (Prod.ext_iff.mp heq).2).2
  | child name nodes => exact absurd h nofun
  | indexed name nodes => exact absurd h nofun

theorem selected_length {leaf : Leaf κ} {cb : κ}
    (h : selected globalNodes ctl names type = some (leaf, cb, indexes)) :
    indexes.length = names.countP isNumber := by
  have hselect : ∀ nodes : List (Node κ), (select isNumber nodes names []).bind (callback type) =
      some (leaf, cb, indexes) → indexes.length = names.countP isNumber := by
    intro nodes h
    obtain ⟨⟨n, indexes'⟩, hselect, hcallback⟩ := Option.bind_eq_some_iff.mp h
    rw [← callback_indexes hcallback, select_length hselect, length_nil, Nat.zero_add]
  rcases Option.or_eq_some_iff.mp h with h | ⟨-, h⟩
  · exact hselect globalNodes h
  · obtain ⟨root, -, h⟩ := Option.bind_eq_some_iff.mp h
    exact hselect root h

/-- If as many components are numbers as begin with one, all that begin with one are numbers. -/
theorem isNumber_of_countP (h : names.countP isNumber = names.countP beginsNumber) :
    ∀ c ∈ names, beginsNumber c = true → isNumber c = true := by
  induction names with
  | nil => exact fun c hc => absurd hc not_mem_nil
  | cons c names ih =>
    have hle : names.countP isNumber ≤ names.countP beginsNumber :=
      countP_mono_left fun _ _ => isNumber_beginsNumber
    rw [countP_cons, countP_cons] at h
    have hhead : beginsNumber c = true → isNumber c = true := by
      intro hbegins
      by_contra hnot
      rw [if_pos hbegins, if_neg hnot] at h
      omega
    refine forall_mem_cons.mpr ⟨hhead, ih ?_⟩
    by_cases hnum : isNumber c = true
    · rw [if_pos hnum, if_pos (isNumber_beginsNumber hnum)] at h
      omega
    · rw [if_neg hnum, if_neg fun hbegins => hnum (hhead hbegins)] at h
      omega

theorem callAt_eq (p : Node κ × List Index) : callAt type source p = match callback type p with
    | none => []
    | some (leaf, cb, indexes) =>
      ((execArg leaf type source).map fun arg => (⟨cb, arg, indexes⟩ : Call κ α)).toList := by
  obtain ⟨n, indexes⟩ := p
  cases n with
  | leaf name leaf =>
    rw [callAt, callback]
    cases leaf.cb type with
    | none => rfl
    | some cb =>
      rw [Option.map_some]
      dsimp only
      cases execArg leaf type source with
      | none => rfl
      | some arg => rfl
  | child name nodes => rfl
  | indexed name nodes => rfl

/-- The query reads no children of a leaf. It calls a callback if the components of the name select
a leaf that has one, and only that one, once, with an index for each number; and a callback that
takes the first index gets one. -/
def Exact (takesFirst : κ → Bool) (globalNodes : List (Node κ)) (ctl : Option (List (Node κ)))
    (name : List Char) (type : QueryType) (source : Source α) : Prop :=
  ∃ calls : List (Call κ α), ctlQuery globalNodes ctl name type source = .ok calls ∧
    calls.map (fun call => (call.cb, call.indexes)) =
      ((selected globalNodes ctl (strtok '.' name) type).map Prod.snd).toList ∧
    ∀ call ∈ calls, takesFirst call.cb = true → call.indexes ≠ []

structure Lookable (takesFirst : κ → Bool) (globalNodes : List (Node κ))
    (ctl : Option (List (Node κ))) (names : List (List Char)) (type : QueryType)
    (source : Source α) : Prop where
  inTrees : InTrees globalNodes ctl names
  /-- If a callback is selected, no component only begins with a number, no other node of the global
  tree has the name, the argument can be passed, and there is an index where one is needed. -/
  called : ∀ leaf cb indexes, selected globalNodes ctl names type = some (leaf, cb, indexes) →
    (∀ c ∈ names, beginsNumber c = true → isNumber c = true) ∧
    (select isNumber globalNodes names [] ≠ none →
      (select isNumber globalNodes names []).bind (callback type) ≠ none) ∧
    (execArg leaf type source).isSome = true ∧
    (takesFirst cb = true → ∃ c ∈ names, isNumber c = true)
  /-- If none is selected, then none either when components that begin with a number count as
  numbers, or the argument cannot be passed. -/
  uncalled : selected globalNodes ctl names type = none →
    ∀ p leaf cb indexes, found beginsNumber globalNodes ctl names = some p →
      callback type p = some (leaf, cb, indexes) → execArg leaf type source = none

variable (ctl) in
/-- Where the numbers are clear and nothing is in the way, the found node has the selected
callback. -/
theorem found_callback (hnum : ∀ c ∈ names, beginsNumber c = true → isNumber c = true)
    (hglobal : select isNumber globalNodes names [] ≠ none →
      (select isNumber globalNodes names []).bind (callback type) ≠ none) :
    (found beginsNumber globalNodes ctl names).bind (callback type) =
      selected globalNodes ctl names type := by
  have hsame : ∀ nodes : List (Node κ), select beginsNumber nodes names [] =
      select isNumber nodes names [] := fun nodes =>
    select_congr fun c hc => Bool.eq_iff_iff.mpr ⟨hnum c hc, isNumber_beginsNumber⟩
  unfold found selected
  simp only [hsame]
  cases hfound : select isNumber globalNodes names [] with
  | none => cases ctl <;> rfl
  | some p =>
    rw [hfound] at hglobal
    obtain ⟨r, hr⟩ := Option.ne_none_iff_exists'.mp (hglobal nofun)
    rw [Option.some_or, hr, Option.some_or]

theorem Lookable.exact {takesFirst : κ → Bool}
    (h : Lookable takesFirst globalNodes ctl (strtok '.' name) type source) :
    Exact takesFirst globalNodes ctl name type source := by
  refine ⟨_, ctlQuery_eq_of_inTrees h.inTrees, ?_⟩
  cases hselected : selected globalNodes ctl (strtok '.' name) type with
  | none =>
    have hnone : ((found beginsNumber globalNodes ctl (strtok '.' name)).map
        (callAt (α := α) type source)).getD [] = [] := by
      cases hfound : found beginsNumber globalNodes ctl (strtok '.' name) with
      | none => rfl
      | some p =>
        rw [Option.map_some, Option.getD_some, callAt_eq]
        cases hcallback : callback type p with
        | none => rfl
        | some r =>
          dsimp only
          rw [h.uncalled hselected p r.1 r.2.1 r.2.2 hfound hcallback]
          rfl
    rw [hnone]
    exact ⟨rfl, fun call hcall => absurd hcall not_mem_nil⟩
  | some r =>
    obtain ⟨leaf, cb, indexes⟩ := r
    obtain ⟨hnum, hglobal, htakes, hfirst⟩ := h.called leaf cb indexes hselected
    have hcallback := found_callback ctl hnum hglobal
    rw [hselected] at hcallback
    obtain ⟨⟨n, indexes'⟩, hfound, hcallback⟩ := Option.bind_eq_some_iff.mp hcallback
    obtain ⟨arg, harg⟩ := Option.isSome_iff_exists.mp htakes
    rw [hfound, Option.map_some, Option.getD_some, callAt_eq, hcallback]
    dsimp only
    rw [harg]
    refine ⟨rfl, fun call hcall hneeds hnil => ?_⟩
    obtain rfl := mem_singleton.mp hcall
    replace hnil : indexes = [] := hnil
    obtain ⟨c, hc, hcnum⟩ := hfirst hneeds
    have hlength := found_length hfound
    rw [callback_indexes hcallback, hnil, length_nil] at hlength
    exact absurd (isNumber_beginsNumber hcnum) (countP_eq_zero.mp hlength.symm c hc)

theorem mem_getD_callAt {o : Option (Node κ × List Index)} {call : Call κ α}
    (h : call ∈ (o.map (callAt type source)).getD []) :
    ∃ p leaf, o = some p ∧ callback type p = some (leaf, call.cb, call.indexes) ∧
      (execArg leaf type source).isSome = true := by
  cases o with
  | none => exact absurd h not_mem_nil
  | some p =>
    rw [Option.map_some, Option.getD_some, callAt_eq] at h
    cases hcallback : callback type p with
    | none =>
      rw [hcallback] at h
      exact absurd h not_mem_nil
    | some r =>
      rw [hcallback] at h
      obtain ⟨arg, harg, rfl⟩ := Option.map_eq_some_iff.mp (Option.mem_toList.mp h)
      exact ⟨p, r.1, rfl, hcallback, Option.isSome_iff_exists.mpr ⟨arg, harg⟩⟩

theorem Exact.lookable {takesFirst : κ → Bool}
    (h : Exact takesFirst globalNodes ctl name type source) :
    Lookable takesFirst globalNodes ctl (strtok '.' name) type source := by
  obtain ⟨calls, hquery, hcalls, hfirst⟩ := h
  have hin := inTrees_of_ctlQuery hquery
  rw [ctlQuery_eq_of_inTrees hin, Except.ok.injEq] at hquery
  refine ⟨hin, fun leaf cb indexes hselected => ?_,
      fun hselected p leaf cb indexes hfound hcb => ?_⟩
  · rw [hselected] at hcalls
    obtain ⟨call, rest, rfl⟩ := exists_cons_of_ne_nil fun hnil : calls = [] => by
      rw [hnil] at hcalls
      exact absurd hcalls nofun
    have hcall := (cons_eq_cons.mp hcalls).1
    obtain ⟨rfl, rfl⟩ := Prod.mk.inj hcall
    obtain ⟨⟨n, indexes'⟩, leaf', hfound, hcallback, htakes⟩ :=
      mem_getD_callAt (hquery ▸ mem_cons_self)
    have hlength := found_length hfound
    rw [callback_indexes hcallback, selected_length hselected] at hlength
    have hnum := isNumber_of_countP hlength
    have hsame : ∀ nodes : List (Node κ), select beginsNumber nodes (strtok '.' name) [] =
        select isNumber nodes (strtok '.' name) [] := fun nodes =>
      select_congr fun c hc => Bool.eq_iff_iff.mpr ⟨hnum c hc, isNumber_beginsNumber⟩
    have hglobal : select isNumber globalNodes (strtok '.' name) [] ≠ none →
        (select isNumber globalNodes (strtok '.' name) []).bind (callback type) ≠ none := by
      intro hne
      obtain ⟨q, hq⟩ := Option.ne_none_iff_exists'.mp hne
      rw [found, hsame, hq, Option.some_or, Option.some_inj] at hfound
      rw [hq, Option.bind_some, hfound, hcallback]
      exact nofun
    have hsel := found_callback ctl hnum hglobal
    rw [hfound, Option.bind_some, hcallback, hselected, Option.some_inj] at hsel
    obtain rfl := (Prod.mk.inj hsel).1
    refine ⟨hnum, hglobal, htakes, fun hneeds => ?_⟩
    have hne := hfirst call mem_cons_self hneeds
    have hpos := length_pos_iff.mpr hne
    rw [selected_length hselected] at hpos
    exact countP_pos_iff.mp hpos
  · rw [hselected] at hcalls
    obtain rfl := map_eq_nil_iff.mp hcalls
    rw [hfound, Option.map_some, Option.getD_some, callAt_eq, hcb] at hquery
    exact Option.map_eq_none_iff.mp (Option.toList_eq_nil_iff.mp hquery)

/-- A query is exact for these names and for no others. -/
theorem ctlQuery_exact_iff (takesFirst : κ → Bool) (globalNodes : List (Node κ))
    (ctl : Option (List (Node κ))) (name : List Char) (type : QueryType) (source : Source α) :
    Exact takesFirst globalNodes ctl name type source ↔
      Lookable takesFirst globalNodes ctl (strtok '.' name) type source :=
  ⟨Exact.lookable, Lookable.exact⟩

/-! ## The parsers of arguments -/

/-- `ctl_parse_ll`; `LLONG_MIN` is an error. -/
def ctlParseLl (str : List Char) : Int :=
  match strtolScan str with
  | none => -2 ^ 63
  | some (val, _) => if -2 ^ 63 ≤ val ∧ val < 2 ^ 63 then val else -2 ^ 63

def ctlArgBoolean : ArgParser := fun arg =>
  match arg with
  | [] => none
  | c :: _ =>
    if c.toLower = 'y' ∨ c = '1' then some (.int 1)
    else if c.toLower = 'n' ∨ c = '0' then some (.int 0) else none

/-- `ctl_arg_integer` for a field of `destSize` bytes. -/
def ctlArgInteger (destSize : Nat) : ArgParser := fun arg =>
  let val := ctlParseLl arg
  if val = -2 ^ 63 then none
  else match destSize with
    | 4 => if 2 ^ 31 - 1 < val ∨ val < -2 ^ 31 then none else some (.int val)
    | 8 => some (.int val)
    | 1 => if 255 < val ∨ val < 0 then none else some (.int val)
    | _ => none

def ctlArgString (destSize : Nat) : ArgParser := fun arg =>
  if arg.length < destSize then some (.string arg) else none

/-! ## The tree of the heap -/

/-- The handlers of `pmalloc.c`. -/
inductive HeapHandler
  | descRead
  | descWrite
  | extendRunnable
  | granularityRead
  | granularityWrite
  deriving DecidableEq

/-- The read handler of `desc` takes the first index without a test. -/
def HeapHandler.takesFirst : HeapHandler → Bool
  | descRead => true
  | _ => false

def pmallocHeaderTypeParser : ArgParser := fun vstr =>
  if vstr = "none".toList then some (.int 2)
  else if vstr = "compact".toList then some (.int 1)
  else if vstr = "legacy".toList then some (.int 0) else none

/-- `CTL_ARG(desc)`. -/
def ctlArgDesc : List ArgParser :=
  [ctlArgInteger 8, ctlArgInteger 8, ctlArgInteger 4, pmallocHeaderTypeParser]

def ctlNodeClassId : List (Node HeapHandler) :=
  [.leaf "desc".toList (.rw .descRead .descWrite ctlArgDesc)]

def ctlNodeNew : List (Node HeapHandler) := [.leaf "desc".toList (.wo .descWrite ctlArgDesc)]

def ctlNodeAllocClass : List (Node HeapHandler) :=
  [.indexed "class_id".toList ctlNodeClassId, .indexed "new".toList ctlNodeNew]

def ctlNodeSize : List (Node HeapHandler) :=
  [.leaf "granularity".toList (.rw .granularityRead .granularityWrite [ctlArgInteger 8]),
    .leaf "extend".toList (.run .extendRunnable)]

def ctlNodeHeap : List (Node HeapHandler) :=
  [.child "alloc_class".toList ctlNodeAllocClass, .child "size".toList ctlNodeSize]

/-- A pool with the module of `pmalloc_ctl_register`. -/
def heapRoot : List (Node HeapHandler) := [.child "heap".toList ctlNodeHeap]

/-- The children of the leaf `extend` are read, the read handler of `desc` is called without an
index, and `5x` is taken for the class 5. -/
theorem heapRoot_not_exact :
    ¬Exact HeapHandler.takesFirst [] (some heapRoot) "heap.size.extend.now".toList .read
      (.programmatic (some ())) ∧
    ¬Exact HeapHandler.takesFirst [] (some heapRoot) "heap.alloc_class.class_id.desc".toList .read
      (.programmatic (some ())) ∧
    ¬Exact HeapHandler.takesFirst [] (some heapRoot) "heap.alloc_class.5x.desc".toList .read
      (.programmatic (some ())) := by
  refine ⟨?_, ?_, ?_⟩
  · rintro ⟨calls, hquery, -⟩
    have hfault : ctlQuery (α := Unit) [] (some heapRoot) "heap.size.extend.now".toList .read
        (.programmatic (some ())) = .error .nullChildren := rfl
    rw [hfault] at hquery
    exact absurd hquery nofun
  · rintro ⟨calls, hquery, -, hfirst⟩
    obtain rfl : [⟨.descRead, .pointer (some ()), []⟩] = calls := Except.ok.inj hquery
    exact hfirst _ List.mem_cons_self rfl rfl
  · rintro ⟨calls, hquery, hcalls, -⟩
    obtain rfl : [⟨.descRead, .pointer (some ()), [⟨"class_id".toList, 5⟩]⟩] = calls :=
      Except.ok.inj hquery
    exact absurd hcalls (by decide)

end Pmdk.Ctl
