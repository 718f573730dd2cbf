import Pmdk.Blk.BttGeometry

/-!
# The layout in bytes

`write_layout` and `read_layout` on the bytes of a namespace.

All calls of the namespace succeed. What a call of `write_layout` that fails leaves there is not
part of the model.
-/

namespace Pmdk.Btt.Raw

/-! ## Writing -/

structure Bttp where
  rawsize : UInt64
  lbasize : UInt32
  uuid : Uuid
  parentUuid : Uuid
  nsIsZeroed : Bool

def Bttp.info (b : Bttp) : BttInfo where
  sig := Sig
  uuid := b.uuid
  parentUuid := b.parentUuid
  flags := 0
  major := 1
  minor := 1
  externalLbasize := 0
  externalNlba := 0
  internalLbasize := 0
  internalNlba := 0
  nfree := 0
  infosize := 0
  nextoff := 0
  dataoff := 0
  mapoff := 0
  flogoff := 0
  infooff := 0
  checksum := 0

structure Placed where
  off : UInt64
  size : UInt64
  info : BttInfo

def arenaRawsize (rawsize : UInt64) : UInt64 :=
  if rawsize > BTT_MAX_ARENA then BTT_MAX_ARENA else rawsize

theorem arenaRawsize_bounds {rawsize : UInt64} (h : rawsize ≥ BTT_MIN_SIZE) :
    (arenaRawsize rawsize).toNat = min rawsize.toNat (2 ^ 39) ∧
      (rawsize - arenaRawsize rawsize).toNat = rawsize.toNat - min rawsize.toNat (2 ^ 39) ∧
        (rawsize - arenaRawsize rawsize).toNat < rawsize.toNat := by
  have hmax : BTT_MAX_ARENA.toNat = 2 ^ 39 := rfl
  have hmin : BTT_MIN_SIZE.toNat = 2 ^ 24 := rfl
  have hsize : (arenaRawsize rawsize).toNat = min rawsize.toNat (2 ^ 39) := by
    unfold arenaRawsize
    split
    · rename_i hlt
      rw [gt_iff_lt, UInt64.lt_iff_toNat_lt, hmax] at hlt
      omega
    · rename_i hle
      rw [gt_iff_lt, UInt64.lt_iff_toNat_lt, hmax] at hle
      omega
  rw [ge_iff_le, UInt64.le_iff_toNat_le, hmin] at h
  have hleft : (rawsize - arenaRawsize rawsize).toNat =
      rawsize.toNat - min rawsize.toNat (2 ^ 39) := by
    rw [toNat_sub (by omega), hsize]
  exact ⟨hsize, hleft, by omega⟩

def layoutLoop (b : Bttp) (rawsize arenaOff : UInt64) : Option (List Placed) :=
  if _h : rawsize ≥ BTT_MIN_SIZE then do
    let left := rawsize - arenaRawsize rawsize
    let info ← bttInfoSetParams b.info b.lbasize (internalLbasize b.lbasize) BTT_DEFAULT_NFREE
      (arenaRawsize rawsize)
    let info := bttInfoSetOffs info (arenaRawsize rawsize) left
    let rest ← layoutLoop b left (arenaOff + info.nextoff)
    return ⟨arenaOff, arenaRawsize rawsize, info⟩ :: rest
  else some []
termination_by rawsize.toNat
decreasing_by exact (arenaRawsize_bounds ‹_›).2.2

/-- An `nswrite`, or an `nszero`, which writes zeroes. -/
structure Write where
  off : Nat
  len : Nat
  word : Nat → UInt32

def Media.apply (m : Media) (w : Write) : Media := m.write w.off w.len w.word

def flogWord (flog : Flog) : Nat → UInt32
  | 0 => flog.lba
  | 1 => flog.oldMap
  | 2 => flog.newMap
  | _ => flog.seq

/-- The loop that writes the flogs, from the flog `i` on, with `n` flogs to go. -/
def flogWrites (externalNlba : UInt32) : Nat → UInt32 → UInt64 → List Write
  | 0, _, _ => []
  | n + 1, i, flogEntryOff =>
    let old := (externalNlba + i) ||| mapEntryZero
    ⟨flogEntryOff.toNat, 16, flogWord ⟨i, old, old, 1⟩⟩ ::
      ⟨(flogEntryOff + 16).toNat, 16, fun _ => 0⟩ ::
        flogWrites externalNlba n (i + 1) (roundup (flogEntryOff + 16 + 16) 64)

/-- The writes for an arena. The map is zeroed at its offset in the arena, as if this were its
offset in the namespace. -/
def arenaWrites (b : Bttp) (p : Placed) : List Write :=
  (if b.nsIsZeroed then []
    else [⟨p.info.mapoff.toNat, (bttMapSize p.info.externalNlba).toNat, fun _ => 0⟩]) ++
  flogWrites p.info.externalNlba BTT_DEFAULT_NFREE.toNat 0 (p.off + p.info.flogoff) ++
  [⟨p.off.toNat, infoSize, p.info.sealed.word⟩,
    ⟨(p.off + p.info.infooff).toNat, infoSize, p.info.sealed.word⟩]

/-! ## Reading the arenas -/

def Media.flog (m : Media) (off : Nat) : Flog :=
  ⟨m.word off, m.word (off + 4), m.word (off + 8), m.word (off + 12)⟩

def Media.flogPair (m : Media) (off : Nat) (e : Bool) : Flog :=
  m.flog (off + if e then 16 else 0)

/-- What `read_flog_pair` leaves behind: the flags of the arena, the run-time flog, the offsets of
the map entries that it reads, and its writes. -/
structure PairRead where
  flags : UInt32
  runtime : FlogRuntime
  reads : List Nat
  writes : List Write

def readFlogPair (nlba : UInt64) (m : Media) (mapoff : UInt64) (flags : UInt32)
    (flogOff : UInt64) : Option PairRead :=
  let pair := m.flogPair flogOff.toNat
  if flogOff = 0 then none
  else if (pair false).lba.toUInt64 ≥ nlba then none
  else if (pair true).lba.toUInt64 ≥ nlba then none
  else
    match flogGetValid pair with
    | none => some ⟨flags ||| infoFlagError, .zeroed, [], []⟩
    | some (current, next) =>
      if current.oldMap = current.newMap then some ⟨flags, ⟨current, next⟩, [], []⟩
      else
        let mapEntryOff := mapoff + (4 * current.lba).toUInt64
        let entry := m.word mapEntryOff.toNat
        let entry := if mapEntryIsInitial entry then current.lba ||| mapEntryNormal else entry
        some ⟨flags, ⟨current, next⟩, [mapEntryOff.toNat],
          if current.newMap ≠ entry ∧ current.oldMap = entry then
            [⟨mapEntryOff.toNat, 4, fun _ => current.newMap⟩]
          else []⟩

structure FlogsRead where
  ok : Bool
  flags : UInt32
  flogs : List FlogRuntime
  accessed : List Nat
  media : Media

def readFlogs (nlba mapoff : UInt64) : Nat → UInt64 → FlogsRead → FlogsRead
  | 0, _, s => s
  | n + 1, flogOff, s =>
    match readFlogPair nlba s.media mapoff s.flags flogOff with
    | none => { s with ok := false }
    | some r =>
      readFlogs nlba mapoff n (flogOff + 64)
        { s with
          flags := r.flags
          flogs := s.flogs ++ [r.runtime]
          accessed := s.accessed ++ r.reads ++ r.writes.map Write.off
          media := r.writes.foldl Media.apply s.media }

structure RawArena where
  flags : UInt32
  externalNlba : UInt32
  internalLbasize : UInt32
  internalNlba : UInt32
  startoff : UInt64
  dataoff : UInt64
  mapoff : UInt64
  flogoff : UInt64
  nextoff : UInt64
  flogs : List FlogRuntime

/-- `read_arena`, for the info block at the beginning of the arena, and what `read_flogs` leaves
behind. -/
def readArena (nlba : UInt64) (nfree : UInt32) (m : Media) (arenaOff : UInt64) :
    RawArena × FlogsRead :=
  let info := BttInfo.ofWords (m.words arenaOff.toNat)
  let r := readFlogs nlba (arenaOff + info.mapoff) nfree.toNat (arenaOff + info.flogoff)
    ⟨true, info.flags, [], [], m⟩
  (⟨r.flags, info.externalNlba, info.internalLbasize, info.internalNlba, arenaOff,
    arenaOff + info.dataoff, arenaOff + info.mapoff, arenaOff + info.flogoff,
    arenaOff + info.nextoff, r.flogs⟩, r)

/-- The state of `read_arenas`. The arenas are those that were read to the end. -/
structure ArenasRead where
  ok : Bool
  arenas : List RawArena
  accessed : List (List Nat)
  media : Media

def readArenas (nlba : UInt64) (nfree : UInt32) : Nat → UInt64 → ArenasRead → ArenasRead
  | 0, _, s => s
  | n + 1, arenaOff, s =>
    let (arena, r) := readArena nlba nfree s.media arenaOff
    let s := { s with accessed := s.accessed ++ [r.accessed], media := r.media }
    if r.ok then
      readArenas nlba nfree n arena.nextoff { s with arenas := s.arenas ++ [arena] }
    else { s with ok := false }

/-- What `write_layout` and `read_layout` find out about a namespace. -/
structure Layout where
  narena : Nat
  nlba : UInt64
  nfree : UInt32
  arenas : List RawArena

/-- `read_arenas`, and the fields that have been found before. -/
def loadArenas (narena : Nat) (nlba : UInt64) (nfree : UInt32) (m : Media) :
    Option (Layout × Media) :=
  let r := readArenas nlba nfree narena 0 ⟨true, [], [], m⟩
  if r.ok then some (⟨narena, nlba, nfree, r.arenas⟩, r.media) else none

def narena (rawsize : UInt64) : Nat :=
  (rawsize / BTT_MAX_ARENA).toNat + if rawsize % BTT_MAX_ARENA ≥ BTT_MIN_SIZE then 1 else 0

def totalNlba (infos : List BttInfo) : UInt64 :=
  infos.foldl (fun nlba info => nlba + info.externalNlba.toUInt64) 0

def written (b : Bttp) (arenas : List Placed) (m : Media) : Media :=
  (arenas.flatMap (arenaWrites b)).foldl Media.apply m

def writeLayout (b : Bttp) (m : Media) : Option (Layout × Media) := do
  if internalLbasize b.lbasize = 0 then none
  let arenas ← layoutLoop b b.rawsize 0
  loadArenas (narena b.rawsize) (totalNlba (arenas.map Placed.info)) BTT_DEFAULT_NFREE
    (written b arenas m)

/-! ## Reading the layout -/

/-- What the loop of `read_layout` finds: an error, that there is no layout, or info blocks. -/
inductive Found
  | error
  | noLayout
  | infos (l : List BttInfo)

def Found.cons (info : BttInfo) : Found → Found
  | .infos l => .infos (info :: l)
  | found => found

def checkInfo (b : Bttp) (m : Media) (arenaOff : UInt64) : Except Found BttInfo :=
  match readInfo b.parentUuid (m.words arenaOff.toNat) with
  | none => .error .noLayout
  | some info =>
    if info.externalLbasize ≠ b.lbasize then .error .error
    else if info.nfree = 0 then .error .error
    else if info.externalNlba = 0 then .error .error
    else if info.nextoff ≠ 0 ∧ info.nextoff ≠ BTT_MAX_ARENA then .error .error
    else .ok info

def readInfos (check : UInt64 → Except Found BttInfo) (rawsize arenaOff : UInt64) : Found :=
  if rawsize ≥ BTT_MIN_SIZE then
    match check arenaOff with
    | .error found => found
    | .ok info =>
      if _hzero : info.nextoff = 0 then .infos [info]
      else if _hle : info.nextoff > rawsize then .error
      else (readInfos check (rawsize - info.nextoff) (arenaOff + info.nextoff)).cons info
  else .infos []
termination_by rawsize.toNat
decreasing_by
  rw [gt_iff_lt, UInt64.not_lt, UInt64.le_iff_toNat_le] at _hle
  have hpos : info.nextoff.toNat ≠ 0 := fun h => _hzero (UInt64.toNat_inj.mp h)
  rw [toNat_sub _hle]
  omega

/-- What `read_layout` passes on to `read_arenas`, for a namespace with a layout: the number of
arenas, the number of blocks and the number of flogs. -/
def readParams (b : Bttp) (m : Media) : Option (Nat × UInt64 × UInt32) :=
  match readInfos (checkInfo b m) b.rawsize 0 with
  | .infos infos =>
    let smallest := infos.foldl
        (fun nfree info => if info.nfree < nfree then info.nfree else nfree)
      0xffffffff
    some (infos.length, totalNlba infos,
      if smallest < BTT_DEFAULT_NFREE then smallest else BTT_DEFAULT_NFREE)
  | _ => none

def readLayout (b : Bttp) (m : Media) : Option (Layout × Media) := do
  let (narena, nlba, nfree) ← readParams b m
  loadArenas narena nlba nfree m

/-- The offsets of the map entries that `read_layout` accesses, for each arena. -/
def accesses (b : Bttp) (m : Media) : List (List Nat) :=
  match readParams b m with
  | some (narena, nlba, nfree) => (readArenas nlba nfree narena 0 ⟨true, [], [], m⟩).accessed
  | none => []

/-!
## The arenas of a layout

The loop of `write_layout` places one arena behind the other, all of them of the maximal size but
for the last one (`Chain`). The number of its turns is what the division gives, the arenas do not
overlap, and neither do the areas of an arena.
-/

open List

variable {arenaOff : UInt64}

structure Placed.Good (b : Bttp) (p : Placed) : Prop where
  min : 2 ^ 24 ≤ p.size.toNat
  max : p.size.toNat ≤ 2 ^ 39
  exact : Exact p.size.toNat b.lbasize.toNat p.info
  internalNlba : 512 ≤ p.info.internalNlba.toNat
  sig : p.info.sig = Sig
  parentUuid : p.info.parentUuid = b.parentUuid
  major : p.info.major = 1
  externalLbasize : p.info.externalLbasize = b.lbasize
  nfree : p.info.nfree = BTT_DEFAULT_NFREE

def Chain (b : Bttp) : Nat → Nat → List Placed → Prop
  | _, rawsize, [] => rawsize < 2 ^ 24
  | off, rawsize, p :: l =>
    p.Good b ∧ p.off.toNat = off ∧ p.size.toNat = min rawsize (2 ^ 39) ∧
      p.info.nextoff.toNat = (if l = [] then 0 else 2 ^ 39) ∧
        Chain b (off + 2 ^ 39) (rawsize - 2 ^ 39) l

variable {b : Bttp} {l : List Placed} {off rawsize : Nat} {p : Placed}

theorem layoutLoop_of_lt {rawsize : UInt64} (h : ¬ rawsize ≥ BTT_MIN_SIZE) :
    layoutLoop b rawsize arenaOff = some [] := by
  rw [layoutLoop, dif_neg h]

theorem layoutLoop_of_le {rawsize : UInt64} (h : rawsize ≥ BTT_MIN_SIZE)
    (hl : layoutLoop b rawsize arenaOff = some l) :
    ∃ info rest, bttInfoSetParams b.info b.lbasize (internalLbasize b.lbasize) BTT_DEFAULT_NFREE
        (arenaRawsize rawsize) = some info ∧
      layoutLoop b (rawsize - arenaRawsize rawsize) (arenaOff + (bttInfoSetOffs info
        (arenaRawsize rawsize) (rawsize - arenaRawsize rawsize)).nextoff) = some rest ∧
      l = ⟨arenaOff, arenaRawsize rawsize, bttInfoSetOffs info (arenaRawsize rawsize)
        (rawsize - arenaRawsize rawsize)⟩ :: rest := by
  rw [layoutLoop, dif_pos h] at hl
  obtain ⟨info, hinfo, hl⟩ := Option.bind_eq_some_iff.mp hl
  obtain ⟨rest, hrest, hl⟩ := Option.bind_eq_some_iff.mp hl
  cases hl
  exact ⟨info, rest, hinfo, hrest, rfl⟩

theorem layoutLoop_eq_nil {rawsize : UInt64}
    (hl : layoutLoop b rawsize arenaOff = some []) : ¬ rawsize ≥ BTT_MIN_SIZE := by
  intro h
  obtain ⟨_, _, -, -, hnil⟩ := layoutLoop_of_le h hl
  cases hnil

theorem chain_layoutLoop (hlbasize : internalLbasize b.lbasize ≠ 0) {rawsize : UInt64}
    (hl : layoutLoop b rawsize arenaOff = some l) (hmax : arenaOff.toNat + rawsize.toNat < 2 ^ 64) :
    Chain b arenaOff.toNat rawsize.toNat l := by
  have hmin : BTT_MIN_SIZE.toNat = 2 ^ 24 := rfl
  induction l generalizing rawsize arenaOff with
  | nil =>
    have hlt := layoutLoop_eq_nil hl
    rw [ge_iff_le, UInt64.le_iff_toNat_le, hmin] at hlt
    exact Nat.lt_of_not_le hlt
  | cons p l ih =>
    by_cases h : rawsize ≥ BTT_MIN_SIZE
    · obtain ⟨info, rest, hinfo, hrest, hcons⟩ := layoutLoop_of_le h hl
      obtain ⟨hsize, hleft, -⟩ := arenaRawsize_bounds h
      cases hcons
      obtain ⟨hsig, hparent, hmajor, hext, hnfree⟩ := bttInfoSetParams_fields hinfo
      have hR : 2 ^ 24 ≤ rawsize.toNat := by
        rw [← hmin]
        exact UInt64.le_iff_toNat_le.mp h
      obtain ⟨hexact, hnlba⟩ := exact_of_set (rawsize - arenaRawsize rawsize) hlbasize
        (by rw [hsize]; omega) (by rw [hsize]; omega) hinfo
      refine ⟨⟨by rw [hsize]; omega, by rw [hsize]; omega, hexact, hnlba, hsig, hparent, hmajor,
        hext, hnfree⟩, rfl, hsize, ?_⟩
      have hnextoff : (bttInfoSetOffs info (arenaRawsize rawsize)
          (rawsize - arenaRawsize rawsize)).nextoff =
            if rawsize - arenaRawsize rawsize ≥ BTT_MIN_SIZE then arenaRawsize rawsize else 0 := rfl
      dsimp only
      rw [hnextoff] at hrest ⊢
      by_cases hmore : rawsize - arenaRawsize rawsize ≥ BTT_MIN_SIZE
      · have hne : l ≠ [] := by
          rintro rfl
          exact layoutLoop_eq_nil hrest hmore
        rw [if_pos hmore] at hrest ⊢
        rw [if_neg hne, hsize]
        rw [ge_iff_le, UInt64.le_iff_toNat_le, hmin, hleft] at hmore
        have hfull : min rawsize.toNat (2 ^ 39) = 2 ^ 39 := by omega
        have hoff : (arenaOff + arenaRawsize rawsize).toNat = arenaOff.toNat + 2 ^ 39 := by
          rw [UInt64.toNat_add, hsize, hfull]
          exact Nat.mod_eq_of_lt (by omega)
        have hchain := ih hrest (by omega)
        rw [hoff, hleft, hfull] at hchain
        exact ⟨hfull, hchain⟩
      · rw [if_neg hmore] at hrest ⊢
        rw [layoutLoop_of_lt hmore] at hrest
        cases hrest
        rw [if_pos rfl]
        rw [ge_iff_le, UInt64.le_iff_toNat_le, hmin, hleft] at hmore
        refine ⟨rfl, ?_⟩
        change rawsize.toNat - 2 ^ 39 < 2 ^ 24
        omega
    · rw [layoutLoop_of_lt h] at hl
      cases hl

/-! ## Counting -/

theorem Chain.length_eq (h : Chain b off rawsize l) :
    l.length = rawsize / 2 ^ 39 + if rawsize % 2 ^ 39 ≥ 2 ^ 24 then 1 else 0 := by
  induction l generalizing off rawsize with
  | nil =>
    have hlt : rawsize < 2 ^ 24 := h
    rw [length_nil, if_neg (by omega)]
    omega
  | cons p l ih =>
    obtain ⟨hgood, -, hsize, -, hrest⟩ := h
    have hlen := ih hrest
    have hmin := hgood.min
    rw [length_cons, hlen]
    by_cases hfull : 2 ^ 39 ≤ rawsize
    · have hmod : (rawsize - 2 ^ 39) % 2 ^ 39 = rawsize % 2 ^ 39 :=
        (Nat.mod_eq_sub_mod hfull).symm
      rw [hmod]
      omega
    · rw [if_neg (by omega), if_pos (by omega)]
      omega

theorem narena_eq (rawsize : UInt64) : narena rawsize =
    rawsize.toNat / 2 ^ 39 + if rawsize.toNat % 2 ^ 39 ≥ 2 ^ 24 then 1 else 0 := by
  have hmax : BTT_MAX_ARENA.toNat = 2 ^ 39 := rfl
  have hmin : BTT_MIN_SIZE.toNat = 2 ^ 24 := rfl
  unfold narena
  simp only [ge_iff_le, UInt64.le_iff_toNat_le, UInt64.toNat_mod, UInt64.toNat_div, hmax, hmin]

theorem Chain.bounds (h : Chain b off rawsize l) (hp : p ∈ l) :
    p.Good b ∧ off ≤ p.off.toNat ∧ p.off.toNat + p.size.toNat ≤ off + rawsize := by
  induction l generalizing off rawsize with
  | nil => cases hp
  | cons q l ih =>
    obtain ⟨hgood, hoff, hsize, -, hrest⟩ := h
    rcases mem_cons.mp hp with rfl | hp
    · exact ⟨hgood, by omega, by omega⟩
    · obtain ⟨hgood', hle, hend⟩ := ih hrest hp
      have hmin := hgood'.min
      exact ⟨hgood', by omega, by omega⟩

theorem Chain.pairwise (h : Chain b off rawsize l) :
    l.Pairwise fun p q => p.off.toNat + p.size.toNat ≤ q.off.toNat := by
  induction l generalizing off rawsize with
  | nil => exact List.Pairwise.nil
  | cons p l ih =>
    obtain ⟨hgood, hoff, -, -, hrest⟩ := h
    refine pairwise_cons.mpr ⟨fun q hq => ?_, ih hrest⟩
    have hle := (hrest.bounds hq).2.1
    have hmax := hgood.max
    omega

/-! ## Areas -/

def areas (info : BttInfo) : List (Nat × Nat) :=
  [(0, infoSize), (info.dataoff.toNat, info.internalNlba.toNat * info.internalLbasize.toNat),
    (info.mapoff.toNat, info.externalNlba.toNat * 4), (info.flogoff.toNat, info.nfree.toNat * 64),
    (info.infooff.toNat, infoSize)]

structure Placed.Areas (p : Placed) : Prop where
  internalNlba : p.info.internalNlba.toNat < 2 ^ 30
  externalNlba : p.info.externalNlba.toNat + 256 = p.info.internalNlba.toNat
  dataoff : p.info.dataoff.toNat = 4096
  data : 4096 + p.info.internalNlba.toNat * p.info.internalLbasize.toNat ≤ p.info.mapoff.toNat
  mapSize : (bttMapSize p.info.externalNlba).toNat =
    Btt.roundup (p.info.externalNlba.toNat * 4) 4096
  map : p.info.mapoff.toNat + (bttMapSize p.info.externalNlba).toNat = p.info.flogoff.toNat
  flogs : p.info.flogoff.toNat + 256 * 64 = p.info.infooff.toNat
  info : p.info.infooff.toNat + 4096 = p.size.toNat

theorem Placed.Good.areas (h : p.Good b) : p.Areas := by
  obtain ⟨hnfree, hlbasize, hint, hext, hdata, hinfo, hflog, hmap⟩ := h.exact
  have hmin := h.min
  have hmax := h.max
  have hnlba := h.internalNlba
  have hL : 512 ≤ p.info.internalLbasize.toNat := by
    rw [hlbasize]
    exact Nat.le_trans (Nat.le_max_right _ _) (le_roundup (by decide)).1
  obtain ⟨hlt, hfit⟩ := nlba_bounds hmax hL hint
  have hmapsize := toNat_bttMapSize p.info.externalNlba (by omega)
  have hround := @le_roundup (p.info.externalNlba.toNat * 4) 4096 (by decide)
  rw [← hmapsize] at hmap hround
  exact ⟨hlt, by omega, hdata, by omega, hmapsize, by omega, by omega, by omega⟩

/-- The areas of an arena do not overlap, and lie inside of the arena. -/
theorem Placed.Good.pairwise_areas (h : p.Good b) :
    ((Raw.areas p.info).Pairwise fun x y => x.1 + x.2 ≤ y.1) ∧
      ∀ x ∈ Raw.areas p.info, x.1 + x.2 ≤ p.size.toNat := by
  obtain ⟨-, -, hdataoff, hdata, hmapsize, hmap, hflogs, hinfo⟩ := h.areas
  have hnfree := h.exact.nfree
  have hround := @le_roundup (p.info.externalNlba.toNat * 4) 4096 (by decide)
  rw [← hmapsize] at hround
  simp only [Raw.areas, infoSize, hnfree, hdataoff, pairwise_cons, mem_cons,
    not_mem_nil, or_false, forall_eq_or_imp, forall_eq, List.Pairwise.nil, and_true,
    false_imp_iff, implies_true]
  omega

end Pmdk.Btt.Raw
