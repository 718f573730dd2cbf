import Pmdk.Lib.Lines

/-!
# Reading a poolset file

`util_readline` puts a line together from pieces that `fgets` reads into a buffer that is doubled
for every one of them. The memory for the buffer is there whenever it is asked for.
-/

namespace Pmdk.Poolset

open List

/-! ## The stream -/

structure Stream where
  rest : List Char
  eof : Bool := false

/-- The characters `fgets` takes: at most `n`, and none behind a newline. -/
def fgetsPiece : Nat → List Char → List Char
  | 0, _ => []
  | _ + 1, [] => []
  | n + 1, ch :: s => if ch = '\n' then [ch] else ch :: fgetsPiece n s

/-- `fgets`, without the NUL it puts behind what it has read. The end of the file is only seen by
trying to read there. -/
def fgets (max : Int) (s : Stream) : Option (List Char) × Stream :=
  if max ≤ 0 then (none, s)
  else if max = 1 then (some [], s)
  else
    let n := (max - 1).toNat
    let piece := fgetsPiece n s.rest
    (if piece = [] then none else some piece,
      { rest := s.rest.drop piece.length
        eof := s.eof || decide (piece.length < n ∧ piece.getLast? ≠ some '\n') })

def cString (s : List Char) : List Char := s.takeWhile (· != '\x00')

/-- What `util_fgets` does with a string that ends in CRLF. -/
def convertCrlf (str : List Char) : List Char :=
  let len := str.length
  if len < 2 then str
  else if str[len - 2]? = some '\r' ∧ str[len - 1]? = some '\n' then str.take (len - 2) ++ ['\n']
  else str

/-! ## `util_readline` -/

def parserMaxLine : Nat := 4096 + 1024

/-- A number as an `int`. -/
def toInt (n : Nat) : Int :=
  if n % 2 ^ 32 < 2 ^ 31 then (n % 2 ^ 32 : Nat) else (n % 2 ^ 32 : Nat) - 2 ^ 32

/-- `(int)bufsize / 2`. -/
def readlineMax (bufsize : Nat) : Int := (toInt bufsize).tdiv 2

/-- `bufsize *= 2`. -/
def doubled (bufsize : Nat) : Nat := bufsize * 2 % 2 ^ 64

/-- The loop of `util_readline`, with the string in the buffer; `none` if a place outside of the
buffer is written or read. -/
def readlineLoop : Nat → Nat → List Char → Stream → Option (Option (List Char) × Stream)
  | 0, _, _, _ => none
  | fuel + 1, bufsize, buffer, s =>
    match fgets (readlineMax bufsize) s with
    | (none, s') => some (none, s')
    | (some piece, s') =>
      if bufsize < buffer.length + piece.length + 1 then none
      else
        let buffer' := buffer ++ convertCrlf (cString piece)
        if s'.eof then some (some buffer', s')
        else match buffer'.getLast? with
          | none => none
          | some last =>
            if last = '\n' then some (some buffer', s')
            else readlineLoop fuel (doubled bufsize) buffer' s'

def utilReadline (s : Stream) : Option (Option (List Char) × Stream) :=
  readlineLoop (s.rest.length + 1) parserMaxLine [] s

def readlines : Nat → Stream → Option (List (List Char))
  | 0, _ => none
  | fuel + 1, s =>
    match utilReadline s with
    | none => none
    | some (none, _) => some []
    | some (some line, s') => (readlines fuel s').map (line :: ·)

def readFile (content : List Char) : Option (List (List Char)) :=
  readlines (content.length + 1) { rest := content }

/-! ## Pieces -/

theorem fgetsPiece_eq (n : Nat) (s : List Char) : fgetsPiece n s = (Lines.first '\n' s).take n := by
  induction n generalizing s with
  | zero => rw [fgetsPiece, take_zero]
  | succ n ih =>
    cases s with
    | nil => rfl
    | cons ch s =>
      rw [fgetsPiece, Lines.first]
      by_cases h : ch = '\n'
      · rw [if_pos h, if_pos h, take_succ_cons, take_nil]
      · rw [if_neg h, if_neg h, take_succ_cons, ih]

theorem cString_eq {s : List Char} (h : '\x00' ∉ s) : cString s = s :=
  takeWhile_eq_self_iff.mpr fun _ hch => bne_iff_ne.mpr fun heq => h (heq ▸ hch)

def dropCr (l : List Char) : List Char :=
  if ['\r', '\n'] <:+ l then l.dropLast.dropLast ++ ['\n'] else l

theorem convertCrlf_append (l : List Char) : convertCrlf (l ++ ['\r', '\n']) = l ++ ['\n'] := by
  have hlen : (l ++ ['\r', '\n']).length = l.length + 2 := length_append
  have hcr : (l ++ ['\r', '\n'])[l.length]? = some '\r' := by simp
  have hlf : (l ++ ['\r', '\n'])[l.length + 1]? = some '\n' := by simp
  rw [convertCrlf, hlen, if_neg (Nat.not_lt.mpr (Nat.le_add_left 2 _)), Nat.add_sub_cancel,
    Nat.add_sub_assoc (Nat.le_succ 1), if_pos ⟨hcr, hlf⟩, take_left]

variable {l : List Char}

theorem convertCrlf_of_not_suffix (h : ¬['\r', '\n'] <:+ l) : convertCrlf l = l := by
  rw [convertCrlf]
  split
  · rfl
  · rename_i hlen
    refine if_neg fun hend => h ?_
    rw [suffix_iff_eq_drop]
    refine ext_getElem? fun i => ?_
    rw [getElem?_drop]
    match i with
    | 0 => exact hend.1.symm
    | 1 =>
      have hlast : l.length - ['\r', '\n'].length + 1 = l.length - 1 := by
        rw [length_cons, length_singleton]
        omega
      rw [hlast, hend.2]
      rfl
    | i + 2 =>
      rw [getElem?_eq_none (by simp), getElem?_eq_none]
      rw [length_cons, length_singleton]
      omega

theorem dropCr_append (l : List Char) : dropCr (l ++ ['\r', '\n']) = l ++ ['\n'] := by
  rw [dropCr, if_pos (suffix_append _ _)]
  simp

theorem convertCrlf_eq (l : List Char) : convertCrlf l = dropCr l := by
  by_cases h : ['\r', '\n'] <:+ l
  · obtain ⟨l', rfl⟩ := h
    rw [convertCrlf_append, dropCr_append]
  · rw [convertCrlf_of_not_suffix h, dropCr, if_neg h]

theorem append_dropCr {a b : List Char} (h : ['\r', '\n'] <:+ a ++ b → 2 ≤ b.length) :
    a ++ dropCr b = dropCr (a ++ b) := by
  by_cases hb : ['\r', '\n'] <:+ b
  · obtain ⟨b', rfl⟩ := hb
    rw [dropCr_append, ← append_assoc, ← append_assoc, dropCr_append]
  · have hab : ¬['\r', '\n'] <:+ a ++ b := fun hab =>
      hb (suffix_of_suffix_length_le hab (suffix_append a b) (h hab))
    rw [dropCr, if_neg hb, dropCr, if_neg hab]

theorem dropCr_ne (h : ['\r', '\n'] <:+ l) : l ≠ dropCr l := by
  obtain ⟨l', rfl⟩ := h
  rw [dropCr_append]
  intro heq
  cases append_cancel_left heq

theorem getLast?_of_crlf (h : ['\r', '\n'] <:+ l) : l.getLast? = some '\n' := by
  obtain ⟨l', rfl⟩ := h
  rw [getLast?_append]
  rfl

theorem dropCr_getLast? (h : l.getLast? = some '\n') : (dropCr l).getLast? = some '\n' := by
  rw [dropCr]
  split
  · rw [getLast?_append]
    rfl
  · exact h

/-! ## Where the pieces end -/

/-- How much of a line that goes on the first `k` pieces are. -/
def seam (k : Nat) : Nat := 2560 * (2 ^ k - 1) - k

theorem seam_succ (k : Nat) : seam (k + 1) = seam k + (2560 * 2 ^ k - 1) := by
  have hlt : k < 2 ^ k := Nat.lt_two_pow_self
  rw [seam, seam, Nat.pow_succ]
  omega

theorem seam_strictMono : StrictMono seam := by
  refine strictMono_nat_of_lt_succ fun k => ?_
  have hpos := Nat.two_pow_pos k
  rw [seam_succ]
  omega

theorem readlineMax_eq : ∀ k < 19,
    readlineMax (parserMaxLine * 2 ^ k) = (2560 * 2 ^ k : Nat) := by decide

theorem doubled_eq {k : Nat} (hk : k < 19) :
    doubled (parserMaxLine * 2 ^ k) = parserMaxLine * 2 ^ (k + 1) := by
  have hle : 2 ^ k ≤ 2 ^ 19 := Nat.pow_le_pow_right Nat.two_pos (Nat.le_of_lt hk)
  rw [doubled, Nat.mod_eq_of_lt (by rw [parserMaxLine]; omega), Nat.mul_assoc, ← Nat.pow_succ]

theorem fgets_eq {k : Nat} (hk : k < 19) {s : Stream} {piece : List Char}
    (hpiece : (Lines.first '\n' s.rest).take (2560 * 2 ^ k - 1) = piece) :
    fgets (readlineMax (parserMaxLine * 2 ^ k)) s =
      (if piece = [] then none else some piece,
        { rest := s.rest.drop piece.length
          eof := s.eof || decide
            (piece.length < 2560 * 2 ^ k - 1 ∧ piece.getLast? ≠ some '\n') }) := by
  have hpos := Nat.two_pow_pos k
  have hn : ((2560 * 2 ^ k : Nat) - 1 : Int).toNat = 2560 * 2 ^ k - 1 := by omega
  rw [fgets, readlineMax_eq k hk, if_neg (by omega), if_neg (by omega), hn]
  dsimp only
  rw [fgetsPiece_eq, hpiece]

/-! ## One call -/

section Loop

variable {k : Nat} (fuel : Nat) {buffer : List Char} {s : Stream}

theorem readlineLoop_end (hk : k < 19) (buffer : List Char) (hrest : s.rest = []) :
    ∃ s', readlineLoop (fuel + 1) (parserMaxLine * 2 ^ k) buffer s = some (none, s') := by
  have hpiece : (Lines.first '\n' s.rest).take (2560 * 2 ^ k - 1) = [] := by
    rw [hrest, Lines.first, take_nil]
  rw [readlineLoop, fgets_eq hk hpiece]
  exact ⟨_, rfl⟩

theorem readlineLoop_int :
    readlineLoop (fuel + 1) (parserMaxLine * 2 ^ 19) buffer s = some (none, s) := by
  have hmax : readlineMax (parserMaxLine * 2 ^ 19) ≤ 0 := by decide
  rw [readlineLoop, fgets, if_pos hmax]

theorem seam_room (hbuffer : buffer.length = seam k) {piece : List Char}
    (hle : piece.length ≤ 2560 * 2 ^ k - 1) :
    ¬parserMaxLine * 2 ^ k < buffer.length + piece.length + 1 := by
  have hpos := Nat.two_pow_pos k
  rw [hbuffer, seam, parserMaxLine]
  omega

theorem readlineLoop_last (hk : k < 19) (hnul : '\x00' ∉ s.rest) (hbuffer : buffer.length = seam k)
    {line : List Char} (hline : Lines.first '\n' s.rest = line) (hne : line ≠ [])
    (hle : line.length ≤ 2560 * 2 ^ k - 1)
    (hend : line.length < 2560 * 2 ^ k - 1 ∨ line.getLast? = some '\n') :
    ∃ s', readlineLoop (fuel + 1) (parserMaxLine * 2 ^ k) buffer s =
        some (some (buffer ++ dropCr line), s') ∧
      s'.rest = s.rest.drop line.length ∧
      (s'.eof = true → s.eof = true ∨ line.getLast? ≠ some '\n') := by
  have hpiece : (Lines.first '\n' s.rest).take (2560 * 2 ^ k - 1) = line := by
    rw [hline, take_of_length_le hle]
  have hstr : cString line = line := cString_eq fun hmem =>
    hnul ((Lines.first_prefix '\n' s.rest).subset (hline ▸ hmem))
  rw [readlineLoop, fgets_eq hk hpiece, if_neg hne]
  dsimp only
  rw [if_neg (seam_room hbuffer hle), hstr, convertCrlf_eq]
  refine ⟨{ rest := s.rest.drop line.length
            eof := s.eof || decide (line.length < 2560 * 2 ^ k - 1 ∧ line.getLast? ≠ some '\n') },
    ?_, rfl, fun heof => ?_⟩
  · by_cases hlf : line.getLast? = some '\n'
    · have hlast : (buffer ++ dropCr line).getLast? = some '\n' := by
        rw [getLast?_append, dropCr_getLast? hlf]
        rfl
      rw [hlast]
      dsimp only
      rw [if_pos rfl, ite_self]
    · rw [if_pos]
      rw [Bool.or_eq_true, decide_eq_true_eq]
      exact Or.inr ⟨hend.resolve_right hlf, hlf⟩
  · rw [Bool.or_eq_true, decide_eq_true_eq] at heof
    exact heof.imp_right And.right

theorem readlineLoop_more (hk : k < 19) (hnul : '\x00' ∉ s.rest) (hbuffer : buffer.length = seam k)
    (heof : s.eof = false) (hle : 2560 * 2 ^ k - 1 ≤ (Lines.first '\n' s.rest).length)
    (hlast : ((Lines.first '\n' s.rest).take (2560 * 2 ^ k - 1)).getLast? ≠ some '\n') :
    readlineLoop (fuel + 1) (parserMaxLine * 2 ^ k) buffer s =
      readlineLoop fuel (parserMaxLine * 2 ^ (k + 1))
        (buffer ++ (Lines.first '\n' s.rest).take (2560 * 2 ^ k - 1))
        { rest := s.rest.drop (2560 * 2 ^ k - 1) } := by
  generalize hpiece : (Lines.first '\n' s.rest).take (2560 * 2 ^ k - 1) = piece at hlast ⊢
  have hpos := Nat.two_pow_pos k
  have hlen : piece.length = 2560 * 2 ^ k - 1 := by
    rw [← hpiece, length_take, Nat.min_eq_left hle]
  have hne : piece ≠ [] := ne_nil_of_length_pos (by omega)
  have hstr : cString piece = piece := cString_eq fun hmem =>
    hnul ((Lines.first_prefix '\n' s.rest).subset (mem_of_mem_take (hpiece ▸ hmem)))
  have hcr : dropCr piece = piece := by
    rw [dropCr, if_neg fun hcrlf => hlast (getLast?_of_crlf hcrlf)]
  obtain ⟨last, hget⟩ : ∃ last, piece.getLast? = some last := ⟨_, getLast?_eq_some_getLast hne⟩
  have hget' : (buffer ++ piece).getLast? = some last := by
    rw [getLast?_append, hget]
    rfl
  have hnlf : last ≠ '\n' := fun heq => hlast (hget.trans (congrArg some heq))
  rw [readlineLoop, fgets_eq hk hpiece, if_neg hne]
  dsimp only
  rw [if_neg (seam_room hbuffer (Nat.le_of_eq hlen)), hstr, convertCrlf_eq, hcr, hlen, heof,
    Bool.false_or, decide_eq_false fun h => Nat.lt_irrefl _ h.1, if_neg Bool.false_ne_true, hget']
  dsimp only
  rw [if_neg hnlf, doubled_eq hk]

end Loop

/-! ## Whole lines -/

/-- The lines that are read whole: no longer than what nineteen pieces hold, with no end of the
file and no LF behind CR right where a piece is full. -/
structure Fits (line : List Char) : Prop where
  length : line.length ≤ seam 19
  eof : ∀ k, 1 ≤ k → k ≤ 19 → line.getLast? ≠ some '\n' → line.length ≠ seam k
  crlf : ∀ k, 1 ≤ k → k ≤ 19 → ['\r', '\n'] <:+ line → line.length ≠ seam k + 1

section Whole

variable {k : Nat} {line content : List Char}

/-- Between two seams a line that is read to its end comes out as it should unless its last piece is
the LF alone. -/
theorem fits_iff (hk : k < 19) (hlt : seam k < line.length) (hle : line.length ≤ seam (k + 1))
    (hend : line.length < seam (k + 1) ∨ line.getLast? = some '\n') :
    Fits line ↔ (['\r', '\n'] <:+ line → seam k + 2 ≤ line.length) := by
  have hside : ∀ j, seam j ≤ seam k ∨ seam (k + 1) ≤ seam j := fun j =>
    (Nat.lt_or_ge k j).symm.imp (seam_strictMono.monotone ·) (seam_strictMono.monotone ·)
  constructor
  · intro h hcrlf
    cases k with
    | zero => exact hcrlf.length_le
    | succ k =>
      have := h.crlf (k + 1) (Nat.succ_pos k) (Nat.le_of_lt hk) hcrlf
      omega
  · intro h
    refine ⟨hle.trans (seam_strictMono.monotone hk), fun j _ _ hlast heq => ?_,
      fun j _ _ hcrlf heq => ?_⟩
    · have := hend.resolve_right hlast
      rcases hside j with hj | hj <;> omega
    · have := h hcrlf
      rcases hside j with hj | hj <;> omega

structure Reading (content line : List Char) (k : Nat) (buffer : List Char)
    (s : Stream) : Prop where
  pieces : k ≤ 19
  buffer : buffer = line.take (seam k)
  rest : s.rest = content.drop (seam k)
  eof : s.eof = false
  length : seam k ≤ line.length
  ended : line.length = seam k → 1 ≤ k ∧ line.getLast? ≠ some '\n'

def ReadsAs (line rest : List Char) (out : Option (Option (List Char) × Stream)) : Prop :=
  ∃ r s', out = some (r, s') ∧ (r = some (dropCr line) ↔ Fits line) ∧
    (r ≠ none → s'.rest = rest ∧ (s'.eof = true → rest = []))

theorem readsAs_none {rest : List Char} {s' : Stream} (h : ¬Fits line) :
    ReadsAs line rest (some (none, s')) :=
  ⟨none, s', rfl, iff_of_false (Option.some_ne_none _).symm h, fun hne => (hne rfl).elim⟩

theorem drop_of_last (hline : Lines.first '\n' content = line) (hlast : line.getLast? ≠ some '\n') :
    content.drop line.length = [] := by
  have heq := Lines.first_eq_self (hline ▸ hlast)
  rw [← hline, heq, drop_length]

theorem Reading.last {buffer : List Char} {s : Stream} (h : Reading content line k buffer s)
    (hline : Lines.first '\n' content = line) (hnul : '\x00' ∉ content) (hk : k < 19)
    (hlt : seam k < line.length) (hle : line.length ≤ seam (k + 1))
    (hend : line.length < seam (k + 1) ∨ line.getLast? = some '\n') (fuel : Nat) :
    ReadsAs line (content.drop line.length)
      (readlineLoop (fuel + 1) (parserMaxLine * 2 ^ k) buffer s) := by
  have hsucc := seam_succ k
  have hfirst : Lines.first '\n' s.rest = line.drop (seam k) := by
    rw [h.rest, Lines.first_drop (hline ▸ hlt), hline]
  have hgetLast : (line.drop (seam k)).getLast? = line.getLast? := by
    rw [getLast?_drop, if_neg (Nat.not_le.mpr hlt)]
  have hlen : (line.drop (seam k)).length = line.length - seam k := length_drop
  have hbuffer : buffer.length = seam k := by
    rw [h.buffer, length_take, Nat.min_eq_left h.length]
  have hnul' : '\x00' ∉ s.rest := fun hmem => hnul (mem_of_mem_drop (h.rest ▸ hmem))
  obtain ⟨s', hloop, hrest, heof⟩ := readlineLoop_last fuel hk hnul' hbuffer hfirst
    (ne_nil_of_length_pos (by omega)) (by omega)
    (hend.imp (fun hlt' => by omega) fun hlast => hgetLast.trans hlast)
  have hsplit : buffer ++ line.drop (seam k) = line := by
    rw [h.buffer, take_append_drop]
  refine ⟨_, s', hloop, ?_, fun _ => ⟨?_, fun htrue => ?_⟩⟩
  · rw [fits_iff hk hlt hle hend, Option.some.injEq]
    constructor
    · intro heq hcrlf
      by_contra hshort
      have hone : (line.drop (seam k)).length = 1 := by omega
      obtain ⟨ch, hch⟩ := length_eq_one_iff.mp hone
      have hcr : dropCr [ch] = [ch] := by
        rw [dropCr, if_neg fun hsuff => Nat.not_succ_le_self 1 hsuff.length_le]
      rw [hch, hcr, ← hch, hsplit] at heq
      exact dropCr_ne hcrlf heq
    · intro hcrlf
      rw [append_dropCr fun hsuff => ?_, hsplit]
      have := hcrlf (hsplit ▸ hsuff)
      omega
  · rw [hrest, h.rest, drop_drop, hlen, Nat.add_sub_of_le h.length]
  · rcases heof htrue with heof' | hlast
    · exact (Bool.false_ne_true (h.eof.symm.trans heof')).elim
    · exact drop_of_last hline (hgetLast ▸ hlast)

theorem Reading.more {buffer : List Char} {s : Stream} (h : Reading content line k buffer s)
    (hline : Lines.first '\n' content = line) (hnul : '\x00' ∉ content) (hk : k < 19)
    (hlt : seam k < line.length) (hle : seam (k + 1) ≤ line.length)
    (hmore : line.length = seam (k + 1) → line.getLast? ≠ some '\n') (fuel : Nat) :
    ∃ buffer' s', Reading content line (k + 1) buffer' s' ∧ s'.rest.length < s.rest.length ∧
      readlineLoop (fuel + 1) (parserMaxLine * 2 ^ k) buffer s =
        readlineLoop fuel (parserMaxLine * 2 ^ (k + 1)) buffer' s' := by
  have hsucc := seam_succ k
  have hpos := Nat.two_pow_pos k
  have hfirst : Lines.first '\n' s.rest = line.drop (seam k) := by
    rw [h.rest, Lines.first_drop (hline ▸ hlt), hline]
  have hlen : (line.drop (seam k)).length = line.length - seam k := length_drop
  have hbuffer : buffer.length = seam k := by
    rw [h.buffer, length_take, Nat.min_eq_left h.length]
  have hnul' : '\x00' ∉ s.rest := fun hmem => hnul (mem_of_mem_drop (h.rest ▸ hmem))
  have hlong : line.length ≤ content.length := hline ▸ (Lines.first_prefix '\n' content).length_le
  have hlast : ((Lines.first '\n' s.rest).take (2560 * 2 ^ k - 1)).getLast? ≠ some '\n' := by
    by_cases hfull : line.length = seam (k + 1)
    · rw [hfirst, take_of_length_le (by omega), getLast?_drop, if_neg (Nat.not_le.mpr hlt)]
      exact hmore hfull
    · refine Lines.take_first_getLast? ?_
      rw [hfirst]
      omega
  refine ⟨_, _, ⟨hk, ?_, ?_, rfl, hle, fun heq => ⟨Nat.succ_pos k, hmore heq⟩⟩, ?_,
    readlineLoop_more fuel hk hnul' hbuffer h.eof (by rw [hfirst]; omega) hlast⟩
  · rw [hfirst, h.buffer, hsucc, take_add]
  · rw [h.rest, drop_drop, hsucc]
  · rw [length_drop, h.rest, length_drop]
    omega

theorem Reading.readsAs (hline : Lines.first '\n' content = line) (hnul : '\x00' ∉ content)
    {fuel : Nat} {buffer : List Char} {s : Stream} (h : Reading content line k buffer s)
    (hfuel : s.rest.length < fuel) :
    ReadsAs line (content.drop line.length)
      (readlineLoop fuel (parserMaxLine * 2 ^ k) buffer s) := by
  induction fuel generalizing k buffer s with
  | zero => exact (Nat.not_lt_zero _ hfuel).elim
  | succ fuel ih =>
    have hlength := h.length
    by_cases hk : k = 19
    · subst hk
      rw [readlineLoop_int]
      refine readsAs_none fun hfits => ?_
      have heq := Nat.le_antisymm hfits.length hlength
      exact hfits.eof 19 (by decide) (Nat.le_refl 19) (h.ended heq).2 heq
    · have hk := Nat.lt_of_le_of_ne h.pieces hk
      by_cases heq : line.length = seam k
      · obtain ⟨hone, hlast⟩ := h.ended heq
        obtain ⟨s', hend⟩ := readlineLoop_end fuel hk buffer
          (h.rest.trans (heq ▸ drop_of_last hline hlast))
        rw [hend]
        exact readsAs_none fun hfits => hfits.eof k hone h.pieces hlast heq
      · have hlt := Nat.lt_of_le_of_ne hlength (Ne.symm heq)
        by_cases hmore : seam (k + 1) ≤ line.length ∧
            (line.length = seam (k + 1) → line.getLast? ≠ some '\n')
        · obtain ⟨buffer', s', hreading, hshorter, hloop⟩ :=
            h.more hline hnul hk hlt hmore.1 hmore.2 fuel
          rw [hloop]
          exact ih hreading (by omega)
        · have hcases : line.length < seam (k + 1) ∨
              line.length = seam (k + 1) ∧ line.getLast? = some '\n' := by
            by_contra hnot
            rw [not_or, not_and] at hnot
            exact hmore ⟨Nat.le_of_not_lt hnot.1, hnot.2⟩
          exact h.last hline hnul hk hlt
            (hcases.elim Nat.le_of_lt fun hfull => Nat.le_of_eq hfull.1)
                (hcases.imp_right And.right) fuel

end Whole

/-! ## Whole files -/

theorem utilReadline_readsAs {s : Stream} (hne : s.rest ≠ []) (hnul : '\x00' ∉ s.rest)
    (heof : s.eof = true → s.rest = []) :
    ReadsAs (Lines.first '\n' s.rest) (s.rest.drop (Lines.first '\n' s.rest).length)
      (utilReadline s) := by
  have hreading : Reading s.rest (Lines.first '\n' s.rest) 0 [] s := by
    refine ⟨Nat.zero_le 19, take_zero.symm, rfl, Bool.eq_false_iff.mpr (mt heof hne),
      Nat.zero_le _, fun hzero => ?_⟩
    exact (Lines.first_ne_nil hne (eq_nil_of_length_eq_zero hzero)).elim
  exact hreading.readsAs rfl hnul (Nat.lt_succ_self _)

theorem readlines_spec {fuel : Nat} {s : Stream} (hfuel : s.rest.length < fuel)
    (hnul : '\x00' ∉ s.rest) (heof : s.eof = true → s.rest = []) :
    ∃ out, readlines fuel s = some out ∧
      (out = (Lines.split '\n' s.rest).map dropCr ↔
        ∀ line ∈ Lines.split '\n' s.rest, Fits line) := by
  induction fuel generalizing s with
  | zero => exact (Nat.not_lt_zero _ hfuel).elim
  | succ fuel ih =>
    by_cases hne : s.rest = []
    · obtain ⟨s', hend⟩ := readlineLoop_end 0 (Nat.succ_pos 18) [] hne
      have hcall : utilReadline s = some (none, s') := by
        rw [utilReadline, hne]
        exact hend
      refine ⟨[], by rw [readlines, hcall], ?_⟩
      rw [hne]
      exact iff_of_true rfl fun _ h => (not_mem_nil h).elim
    · obtain ⟨r, s', hcall, hfits, hgo⟩ := utilReadline_readsAs hne hnul heof
      rw [Lines.split_eq hne, map_cons, forall_mem_cons]
      cases r with
      | none =>
        refine ⟨[], by rw [readlines, hcall], ?_⟩
        refine iff_of_false (cons_ne_nil _ _).symm fun h => ?_
        exact Option.some_ne_none _ (hfits.mpr h.1).symm
      | some line =>
        obtain ⟨hrest, heof'⟩ := hgo (Option.some_ne_none line)
        have hpos : 0 < (Lines.first '\n' s.rest).length :=
          length_pos_iff.mpr (Lines.first_ne_nil hne)
        have hlen : s'.rest.length < fuel := by
          have := length_pos_iff.mpr hne
          rw [hrest, length_drop]
          omega
        obtain ⟨out, hout, hiff⟩ := ih hlen (fun hmem => hnul (mem_of_mem_drop (hrest ▸ hmem)))
          fun htrue => hrest.trans (heof' htrue)
        have hmap : readlines (fuel + 1) s = some (line :: out) := by
          rw [readlines, hcall]
          dsimp only
          rw [hout]
          rfl
        refine ⟨line :: out, hmap, ?_⟩
        rw [List.cons.injEq, ← hrest, ← hiff, ← hfits, Option.some.injEq]

theorem readFile_spec {content : List Char} (hnul : '\x00' ∉ content) :
    ∃ out, readFile content = some out ∧
      (out = (Lines.split '\n' content).map dropCr ↔
        ∀ line ∈ Lines.split '\n' content, Fits line) :=
  readlines_spec (s := { rest := content }) (Nat.lt_succ_self content.length) hnul
    fun h => (Bool.false_ne_true h).elim

/-- A file without NUL is read line by line, and no line is lost or changed, exactly if every line
fits the pieces. -/
theorem readFile_lines_iff {content : List Char} (hnul : '\x00' ∉ content) :
    readFile content = some ((Lines.split '\n' content).map dropCr) ↔
      ∀ line ∈ Lines.split '\n' content, Fits line := by
  obtain ⟨out, hout, hiff⟩ := readFile_spec hnul
  rw [hout, Option.some.injEq]
  exact hiff

theorem fits_of_short {line : List Char} (h : line.length < seam 1) : Fits line := by
  have hle : ∀ k, 1 ≤ k → seam 1 ≤ seam k := fun k hk => seam_strictMono.monotone hk
  refine ⟨(Nat.le_of_lt h).trans (hle 19 (by decide)), fun k hk _ _ => ?_, fun k hk _ _ => ?_⟩
  · have := hle k hk
    omega
  · have := hle k hk
    omega

def longLine : List Char := List.replicate 3000 'a' ++ ['\r', '\n']

theorem longLine_fits : Fits longLine := by
  have hlen : longLine.length = 3002 := by
    rw [longLine, length_append, length_replicate]
    rfl
  have hend : longLine.getLast? = some '\n' := by
    rw [longLine, getLast?_append]
    rfl
  refine (fits_iff (k := 1) (by decide) ?_ ?_ (.inr hend)).mpr fun _ => ?_
  all_goals
    rw [hlen]
    decide

theorem readFile_lines_crlf :
    readFile ('P' :: 'M' :: '\n' :: longLine) =
      some [['P', 'M', '\n'], List.replicate 3000 'a' ++ ['\n']] := by
  have ha : ∀ {ch}, ch ≠ 'a' → ch ∉ List.replicate 3000 'a' := fun hne hmem =>
    hne (eq_of_mem_replicate hmem)
  have hnul : '\x00' ∉ 'P' :: 'M' :: '\n' :: longLine := by
    simp only [longLine, mem_cons, mem_append, not_or]
    exact ⟨by decide, by decide, by decide, ha (by decide), by decide, by decide, not_mem_nil⟩
  have hcr : '\n' ∉ List.replicate 3000 'a' ++ ['\r'] := by
    rw [mem_append, not_or]
    exact ⟨ha (by decide), by decide⟩
  have hsplit : Lines.split '\n' ('P' :: 'M' :: '\n' :: longLine) =
      [['P', 'M', '\n'], longLine] := by
    have hlong := Lines.split_append hcr []
    rw [append_assoc] at hlong
    exact (Lines.split_append (l := ['P', 'M']) (by decide) longLine).trans
      (congrArg _ hlong)
  have hread := readFile_lines_iff hnul
  rw [hsplit] at hread
  rw [hread.mpr (forall_mem_cons.mpr ⟨fits_of_short (by decide),
    forall_mem_singleton.mpr longLine_fits⟩), map_cons, map_cons, longLine, dropCr_append]
  rfl

def fullLine : List Char := ['8', 'M', ' ', '/'] ++ List.replicate 2555 'a'

def lastLineFull : List Char :=
  ['P', 'M', 'E', 'M', 'P', 'O', 'O', 'L', 'S', 'E', 'T', '\n'] ++ fullLine

theorem not_mem_fullLine {ch : Char} (h : ch ∉ ['8', 'M', ' ', '/', 'a']) : ch ∉ fullLine := by
  rw [fullLine, mem_append, mem_replicate, not_or]
  exact ⟨fun hmem => h (mem_append_left ['a'] hmem),
    fun hmem => h (hmem.2 ▸ mem_append_right ['8', 'M', ' ', '/'] (mem_singleton_self ch))⟩

theorem fullLine_not_fits : ¬Fits fullLine := by
  intro h
  have hlen : fullLine.length = seam 1 := by
    rw [fullLine, length_append, length_replicate]
    decide
  exact h.eof 1 (Nat.le_refl 1) (by decide)
    (fun hlast => not_mem_fullLine (by decide) (mem_of_getLast? hlast)) hlen

/-- The last line is lost. -/
theorem not_lines_lastLineFull :
    '\x00' ∉ lastLineFull ∧
      readFile lastLineFull ≠ some ((Lines.split '\n' lastLineFull).map dropCr) := by
  have hnul : '\x00' ∉ lastLineFull := by
    rw [lastLineFull, List.mem_append, not_or]
    exact ⟨by decide, not_mem_fullLine (by decide)⟩
  have hfirst : Lines.first '\n' fullLine = fullLine := by
    refine Lines.first_eq_self fun h => ?_
    exact not_mem_fullLine (by decide)
      ((Lines.first_prefix '\n' fullLine).subset (List.mem_of_getLast? h))
  have hmem : fullLine ∈ Lines.split '\n' lastLineFull := by
    have hne : fullLine ≠ [] := List.cons_ne_nil _ _
    have hsplit : Lines.split '\n' lastLineFull =
        ['P', 'M', 'E', 'M', 'P', 'O', 'O', 'L', 'S', 'E', 'T', '\n'] ::
          Lines.split '\n' fullLine := rfl
    rw [hsplit, Lines.split_eq hne, hfirst]
    exact List.mem_cons_of_mem _ List.mem_cons_self
  refine ⟨hnul, fun hread => ?_⟩
  obtain ⟨out, hout, hiff⟩ := readFile_spec hnul
  rw [hout, Option.some.injEq] at hread
  exact fullLine_not_fits (hiff.mp hread fullLine hmem)

end Pmdk.Poolset
