import Pmdk.Lib.Lines
import Pmdk.Pool.DirectoryLoad

/-!
# Parsing a poolset file

`util_poolset_parse` goes through the lines of a file once. A line adds a part to the last replica,
or a replica, or options; `nparts` counts the parts of the last local replica.

No path is a directory or a device dax, and memory is there whenever it is asked for. A line is the
string that `util_readline` returns.
-/

namespace Pmdk.Poolset

open Sync (alignDown poolHdrSize)

/-- `enum parser_codes`, for the results that end the loop, and the ways to fail without one. -/
inductive ParserCode
  | pmempoolset
  | replica
  | invalidToken
  | remoteReplicaExpected
  | wrongSize
  | cannotReadSize
  | absolutePathExpected
  | relativePathExpected
  | setNoParts
  | repNoParts
  | remoteRepUnexpectedParts
  | optionUnknown
  | optionExpected
  | readError
  | addError
  | outOfBounds
  deriving DecidableEq

/-- `enum file_type`, without `TYPE_DEVDAX`. -/
inductive FileType
  | otherError
  | notExists
  | normal
  deriving DecidableEq

/-- What the parser asks for: `Mmap_align` and `util_file_get_type`. -/
structure ParseEnv where
  mmapAlign : Nat
  fileType : List Char → FileType

/-- `struct remote_replica`, without the handle. -/
structure RemoteReplica where
  nodeAddr : List Char
  poolDesc : List Char
  deriving DecidableEq

/-- The variables of `util_poolset_parse`; `remote` lists what the remote replicas point to. -/
structure Parser where
  set : PoolSet
  remote : List RemoteReplica
  nparts : Nat
  deriving DecidableEq

/-! ## Sizes -/

/-- The table of `util_parse_size`. -/
def suffixes : List (List Char × Nat) :=
  [("B".toList, 1), ("K".toList, 2 ^ 10), ("M".toList, 2 ^ 20), ("G".toList, 2 ^ 30),
    ("T".toList, 2 ^ 40), ("P".toList, 2 ^ 50), ("KiB".toList, 2 ^ 10), ("MiB".toList, 2 ^ 20),
    ("GiB".toList, 2 ^ 30), ("TiB".toList, 2 ^ 40), ("PiB".toList, 2 ^ 50), ("kB".toList, 1000),
    ("MB".toList, 1000 ^ 2), ("GB".toList, 1000 ^ 3), ("TB".toList, 1000 ^ 4),
    ("PB".toList, 1000 ^ 5)]

/-- The sign that `%zu` reads, and what is behind it. -/
def scanSign : List Char → Bool × List Char
  | '-' :: s => (true, s)
  | '+' :: s => (false, s)
  | s => (false, s)

/-- `%zu`, with what is left: a number that is too large is read as `SIZE_MAX`, and a minus sign
negates it. -/
def scanSize (str : List Char) : Option (Nat × List Char) :=
  let (negative, s) := scanSign (str.dropWhile isspace)
  let digits := s.takeWhile Char.isDigit
  if digits = [] then none
  else
    let n := Nat.ofDigitChars 10 digits 0
    some (if sizeMax < n then sizeMax else if negative then (2 ^ 64 - n) % 2 ^ 64 else n,
      s.drop digits.length)

/-- `%8s`; nothing is read at the end of the string. -/
def scanUnit (s : List Char) : List Char :=
  ((s.dropWhile isspace).takeWhile (!isspace ·)).take 8

def utilParseSize (str : List Char) : Option Nat :=
  match scanSize str with
  | none => none
  | some (size, rest) =>
    if scanUnit rest = [] then some size
    else (suffixes.lookup (scanUnit rest)).map fun mag => size * mag % 2 ^ 64

/-! ## Lines -/

/-- `isblank`; the delimiters of all tokens are the same characters. -/
def isblank (ch : Char) : Bool := ch == ' ' || ch == '\t'

/-- `strtok_r`: the token, and where to go on. -/
def strtokR (s : List Char) : Option (List Char) × List Char :=
  if Words.skip isblank s = [] then (none, [])
  else (some (Words.head isblank (Words.skip isblank s)), Words.tail isblank (Words.skip isblank s))

def utilIsAbsolutePath (path : List Char) : Bool := path.head? == some '/'

/-- `util_autodetect_size`, which has an answer only for a device dax. -/
def utilAutodetectSize (env : ParseEnv) (path : List Char) : Option Nat :=
  match env.fileType path with
  | .otherError | .notExists => none
  | .normal => none

def parserReadLine (env : ParseEnv) (line : List Char) : Except ParserCode (Nat × List Char) :=
  let (sizeStr, s) := strtokR line
  let (pathStr, s) := strtokR s
  let (restStr, _) := strtokR s
  match sizeStr, pathStr, restStr with
  | some sizeStr, some pathStr, none =>
    if !utilIsAbsolutePath pathStr then .error .absolutePathExpected
    else if sizeStr = "AUTO".toList then
      match utilAutodetectSize env pathStr with
      | none => .error .cannotReadSize
      | some size => .ok (size, pathStr)
    else match utilParseSize sizeStr with
      | none => .error .wrongSize
      | some size => if size = 0 then .error .wrongSize else .ok (size, pathStr)
  | _, _, _ => .error .invalidToken

def parserReadReplica (line : List Char) : Except ParserCode RemoteReplica :=
  let (addrStr, s) := strtokR line
  let (descStr, s) := strtokR s
  let (restStr, _) := strtokR s
  match addrStr, descStr with
  | some addrStr, some descStr =>
    if restStr.isSome then .error .invalidToken
    else if utilIsAbsolutePath descStr then .error .relativePathExpected
    else .ok ⟨addrStr, descStr⟩
  | _, _ => .error .remoteReplicaExpected

inductive OptionFlag
  | singlehdr
  | nohdrs
  deriving DecidableEq

def optionTable : List (List Char × OptionFlag) :=
  [("SINGLEHDR".toList, .singlehdr), ("NOHDRS".toList, .nohdrs)]

def optionFlag (name : List Char) : Option OptionFlag := optionTable.lookup name

/-- `*options |= Options[i].flag`. -/
def PoolSet.addOption (set : PoolSet) : OptionFlag → PoolSet
  | .singlehdr => { set with singlehdr := true }
  | .nohdrs => { set with nohdrs := true }

def readOptionsLoop : Nat → Nat → List Char → PoolSet → Except ParserCode PoolSet
  | 0, _, _, _ => .error .readError
  | fuel + 1, optCnt, s, set =>
    match strtokR s with
    | (none, _) => if optCnt = 0 then .error .optionExpected else .ok set
    | (some optStr, s) =>
      match optionFlag optStr with
      | none => .error .optionUnknown
      | some flag => readOptionsLoop fuel (optCnt + 1) s (set.addOption flag)

def parserReadOptions (line : List Char) (set : PoolSet) : Except ParserCode PoolSet :=
  readOptionsLoop (line.length + 1) 0 line set

/-! ## The pool set -/

/-- What is done to `set->replica[set->nreplicas - 1]`. -/
def PoolSet.modifyLast (set : PoolSet) (f : Replica → Replica) : PoolSet :=
  { set with replica := set.replica.modify (set.replica.length - 1) f }

def zeroReplica : Replica := ⟨[], [], 0, 0, 0, false⟩

/-- `util_parse_add_replica`. The number of replicas is an `unsigned`: where it would become zero,
nothing is allocated for the pointer. -/
def utilParseAddReplica (set : PoolSet) : Except ParserCode PoolSet :=
  if 2 ^ 32 ≤ set.replica.length + 1 then .error .outOfBounds
  else .ok { set with replica := set.replica ++ [zeroReplica] }

/-- The part that `util_replica_add_part_by_idx` fills in; a path that is NULL is empty. -/
def parsedPart (env : ParseEnv) (path : List Char) (filesize : Nat) : Part :=
  { zeroPart with path := path, filesize := filesize, alignment := env.mmapAlign, fd := -1 }

/-- `util_parse_add_part`. As above, nothing is allocated for a part with the index `2 ^ 32 - 1`. -/
def utilParseAddPart (env : ParseEnv) (set : PoolSet) (path : Option (List Char))
    (filesize : Nat) : Except ParserCode PoolSet :=
  match set.replica.getLast? with
  | none => .error .outOfBounds
  | some rep =>
    if 2 ^ 32 ≤ rep.part.length + 1 then .error .outOfBounds
    else if path.any fun path => env.fileType path == .otherError then .error .addError
    else .ok (set.modifyLast fun rep =>
      { rep with part := rep.part ++ [parsedPart env (path.getD []) filesize] })

def utilParseAddRemoteReplica (env : ParseEnv) (set : PoolSet) : Except ParserCode PoolSet :=
  match utilParseAddReplica set with
  | .error e => .error e
  | .ok set =>
    match utilParseAddPart env set none (2 * poolHdrSize) with
    | .error e => .error e
    | .ok set => .ok (set.modifyLast fun rep => { rep with remote := true })

/-! ## The loop -/

def strchr (s : List Char) (ch : Char) : Option Nat := s.findIdx? (· == ch)

/-- `*cp = '\0'`. -/
def chopAt (s : List Char) : Option Nat → List Char
  | none => s
  | some cp => s.take cp

def chop (line : List Char) : Option (List Char) :=
  let cp := strchr line '\n'
  let line := chopAt line cp
  if cp = some 0 then none
  else
    let cp := strchr line '#'
    if cp = some 0 then none else some (chopAt line cp)

def noParts (set : PoolSet) : ParserCode :=
  if set.replica.length = 1 then .setNoParts else .repNoParts

/-- What the loop of `util_poolset_parse` does with a line that is not skipped. -/
def parseText (env : ParseEnv) (p : Parser) (text : List Char) : Except ParserCode Parser :=
  if "OPTION".toList <+: text then
    match parserReadOptions (text.drop 6) p.set with
    | .error e => .error e
    | .ok set => .ok { p with set := set }
  else if "REPLICA".toList <+: text then
    match text[7]? with
    | some ch =>
      if !isblank ch then .error .replica
      else match parserReadReplica (text.drop 7) with
        | .error e => .error e
        | .ok remote =>
          match utilParseAddRemoteReplica env p.set with
          | .error e => .error e
          | .ok set => .ok { p with set := set, remote := p.remote ++ [remote] }
    | none =>
      if 1 ≤ p.nparts then
        match utilParseAddReplica p.set with
        | .error e => .error e
        | .ok set => .ok { p with set := set, nparts := 0 }
      else .error (noParts p.set)
  else if p.set.replica.getLast?.any Replica.remote then .error .remoteRepUnexpectedParts
  else match parserReadLine env text with
    | .error e => .error e
    | .ok (psize, ppath) =>
      match utilParseAddPart env p.set (some ppath) psize with
      | .error e => .error e
      | .ok set => .ok { p with set := set, nparts := (p.nparts + 1) % 2 ^ 32 }

def parseLoop (env : ParseEnv) : Nat → List (List Char) → Parser → Except (ParserCode × Nat) Parser
  | nlines, [], p => if 1 ≤ p.nparts then .ok p else .error (noParts p.set, nlines + 1)
  | nlines, line :: lines, p =>
    match chop line with
    | none => parseLoop env (nlines + 1) lines p
    | some text =>
      match parseText env p text with
      | .error e => .error (e, nlines + 1)
      | .ok p => parseLoop env (nlines + 1) lines p

def zeroSet : PoolSet := ⟨[], 0, 0, false, false, false, 0, 0, false⟩

/-- `util_poolset_parse`. Without a device dax and without directories `util_poolset_check_devdax`
and `util_poolset_directories_load` do nothing, and the result of `util_poolset_check_options` is
not used. -/
def utilPoolsetParse (env : ParseEnv) :
    List (List Char) → Except (ParserCode × Nat) (PoolSet × List RemoteReplica)
  | [] => .error (.readError, 0)
  | first :: lines =>
    if "PMEMPOOLSET".toList <+: first ∧ first[11]? = some '\n' then
      match utilParseAddReplica zeroSet with
      | .error e => .error (e, 1)
      | .ok set =>
        match parseLoop env 1 lines ⟨set, [], 0⟩ with
        | .error e => .error e
        | .ok p => .ok (utilPoolsetSetSize env.mmapAlign p.set, p.remote)
    else .error (.pmempoolset, 1)

end Pmdk.Poolset
