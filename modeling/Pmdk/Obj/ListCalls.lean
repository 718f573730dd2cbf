import Pmdk.Obj.ListRefine

/-!
# The calls of `list.c` on sequences

`Layout` and `Call.Allowed` state what the callers promise. The heads and the entries of the objects
are different words of the pool, the place of an insertion is null or in the list, the object to
insert is in no list and the object to remove is in the list. What the allocator and the constructor
of a new object write is somewhere else.
-/

namespace Pmdk.PList

open Assign Memops Ring List

/-! ## Representation -/

def Word.In (heads objs : Set UInt64) : Word → Prop
  | .firstUuid h | .firstOff h => h ∈ heads
  | .nextUuid o | .nextOff o | .prevUuid o | .prevOff o => o ∈ objs

variable {l : List UInt64} {w : Word}

variable {h o a dest head oid : UInt64} {heap : HeapEntries}

theorem Word.Of.in {heads objs : Set UInt64}
    (hw : Word.Of h l w) (hh : h ∈ heads) (hl : ∀ o ∈ l, o ∈ objs) : Word.In heads objs w := by
  cases w with
  | firstUuid h' => exact (hw : h' = h) ▸ hh
  | firstOff h' => exact (hw : h' = h) ▸ hh
  | nextUuid o => exact hl o hw
  | nextOff o => exact hl o hw
  | prevUuid o => exact hl o hw
  | prevOff o => exact hl o hw

theorem Word.Of.cons (hw : Word.Of h l w) :
    Word.Of h (o :: l) w := by
  cases w with
  | firstUuid h' => exact hw
  | firstOff h' => exact hw
  | nextUuid a => exact mem_cons_of_mem o hw
  | nextOff a => exact mem_cons_of_mem o hw
  | prevUuid a => exact mem_cons_of_mem o hw
  | prevOff a => exact mem_cons_of_mem o hw

theorem Word.Of.not_of_disjoint {h' : UInt64} {l' : List UInt64}
    (hw : Word.Of h l w) (hne : h ≠ h') (hl : List.Disjoint l l') : ¬ Word.Of h' l' w := by
  intro hw'
  cases w with
  | firstUuid h'' => exact hne ((hw : h'' = h).symm.trans hw')
  | firstOff h'' => exact hne ((hw : h'' = h).symm.trans hw')
  | nextUuid a => exact hl hw hw'
  | nextOff a => exact hl hw hw'
  | prevUuid a => exact hl hw hw'
  | prevOff a => exact hl hw hw'

structure Layout (p : Pool) (peOffset : UInt64) (heads objs : Set UInt64) : Prop where
  inj : Set.InjOn (Word.addr peOffset) {w | Word.In heads objs w}
  valid : ∀ w, Word.In heads objs w → p.offIsValid (Word.addr peOffset w) = true
  ne_zero : ∀ o ∈ objs, o ≠ 0

structure Represents (uuid : UInt64) (heads objs : Set UInt64) (s : Store)
    (seqs : UInt64 → List UInt64) : Prop where
  nodup : ∀ h ∈ heads, (seqs h).Nodup
  mem : ∀ h ∈ heads, ∀ o ∈ seqs h, o ∈ objs
  disjoint : ∀ h ∈ heads, ∀ h' ∈ heads, h ≠ h' → List.Disjoint (seqs h) (seqs h')
  listAt : ∀ h ∈ heads, ListAt uuid s h (seqs h)

variable {ws : List (Word × UInt64)}

/-- Changing one list, by assignments to its own words and those of the object `o` that is in
no other list. -/
theorem Represents.update {uuid : UInt64} {heads objs : Set UInt64} {s : Store}
    {seqs : UInt64 → List UInt64} (hr : Represents uuid heads objs s seqs)
    (hh : h ∈ heads) (ho : o ∈ objs) (hother : ∀ h' ∈ heads, h' ≠ h → o ∉ seqs h')
    (hws : ∀ w ∈ ws, Word.Of h (o :: seqs h) w.1)
    (hnodup : l.Nodup) (hsub : ∀ a ∈ l, a = o ∨ a ∈ seqs h) (hl : ListAt uuid (assign ws s) h l) :
    Represents uuid heads objs (assign ws s) (Function.update seqs h l) := by
  have hdisj : ∀ h' ∈ heads, h' ≠ h → ∀ a ∈ seqs h', a ∉ o :: seqs h := by
    intro h' hh' hne a ha hmem
    rcases mem_cons.mp hmem with rfl | hmem
    · exact hother h' hh' hne ha
    · exact hr.disjoint h' hh' h hh hne ha hmem
  have hdisj' : ∀ h' ∈ heads, h' ≠ h → ∀ a ∈ seqs h', a ∉ l := fun h' hh' hne a ha hal =>
    hdisj h' hh' hne a ha (mem_cons.mpr (hsub a hal))
  refine ⟨?_, ?_, ?_, ?_⟩
  · intro h' hh'
    by_cases heq : h' = h
    · rw [heq, Function.update_self]
      exact hnodup
    · rw [Function.update_of_ne heq]
      exact hr.nodup h' hh'
  · intro h' hh' a ha
    by_cases heq : h' = h
    · rw [heq, Function.update_self] at ha
      rcases hsub a ha with rfl | hmem
      · exact ho
      · exact hr.mem h hh a hmem
    · rw [Function.update_of_ne heq] at ha
      exact hr.mem h' hh' a ha
  · intro h₁ hh₁ h₂ hh₂ hne a ha₁ ha₂
    by_cases heq₁ : h₁ = h
    · have heq₂ : h₂ ≠ h := fun heq₂ => hne (heq₁.trans heq₂.symm)
      rw [heq₁, Function.update_self] at ha₁
      rw [Function.update_of_ne heq₂] at ha₂
      exact hdisj' h₂ hh₂ heq₂ a ha₂ ha₁
    · rw [Function.update_of_ne heq₁] at ha₁
      by_cases heq₂ : h₂ = h
      · rw [heq₂, Function.update_self] at ha₂
        exact hdisj' h₁ hh₁ heq₁ a ha₁ ha₂
      · rw [Function.update_of_ne heq₂] at ha₂
        exact hr.disjoint h₁ hh₁ h₂ hh₂ hne ha₁ ha₂
  · intro h' hh'
    by_cases heq : h' = h
    · rw [heq, Function.update_self]
      exact hl
    · rw [Function.update_of_ne heq]
      exact (hr.listAt h' hh').frame fun w hw hof =>
        hof.not_of_disjoint heq (fun a ha => hdisj h' hh' heq a ha) (hws w hw)

theorem Represents.congr {uuid : UInt64} {heads objs : Set UInt64} {s s' : Store}
    {seqs : UInt64 → List UInt64} (hr : Represents uuid heads objs s seqs)
    (heq : ∀ h ∈ heads, ∀ w, Word.Of h (seqs h) w → s' w = s w) :
    Represents uuid heads objs s' seqs :=
  ⟨hr.nodup, hr.mem, hr.disjoint, fun h hh => (hr.listAt h hh).congr (heq h hh)⟩

/-! ## The place of an insertion -/

/-- Insert at `dest`, or at the head or the tail when `dest` is null. -/
def insertDest (dest : UInt64) (before : Bool) (o : UInt64) (l : List UInt64) : List UInt64 :=
  if dest = 0 then if before then o :: l else l ++ [o]
  else insertNextTo dest before o l

theorem insertAfter_getLast (o : UInt64)
    (hnodup : (l ++ [a]).Nodup) : insertAfter a o (l ++ [a]) = l ++ [a] ++ [o] := by
  have hnot : a ∉ l := fun ha =>
    (nodup_append.mp hnodup).2.2 a ha a (mem_singleton_self a) rfl
  rw [insertAfter_append o [] hnot]
  simp

/-- `list_get_dest`, on the list words. -/
def getDest (s : Store) (h dest : UInt64) (before : Bool) : UInt64 :=
  if dest ≠ 0 then dest
  else if s (.firstOff h) = 0 ∨ before = true then s (.firstOff h)
  else prevOf s (s (.firstOff h))

theorem getDest_spec {uuid : UInt64} {s : Store}
    (hl : ListAt uuid s h l) (hzero : ∀ a ∈ l, a ≠ 0) (hdest : dest = 0 ∨ dest ∈ l)
    (before : Bool) :
    (dest ≠ 0 ∧ dest ∈ l ∧ getDest s h dest before = dest) ∨
    (dest = 0 ∧ l = [] ∧ getDest s h dest before = 0) ∨
    (dest = 0 ∧ before = true ∧ ∃ t, l = getDest s h dest before :: t) ∨
    (dest = 0 ∧ before = false ∧ ∃ t, l = t ++ [getDest s h dest before]) := by
  unfold getDest
  by_cases hd : dest = 0
  · right
    rw [if_neg (not_not.mpr hd)]
    cases l with
    | nil =>
      left
      have hfirst : s (.firstOff h) = 0 := hl.first
      exact ⟨hd, rfl, by simp [hfirst]⟩
    | cons a t =>
      right
      have hfirst : s (.firstOff h) = a := hl.first
      have ha : a ≠ 0 := hzero a mem_cons_self
      cases before with
      | true => exact .inl ⟨hd, rfl, t, by simp [hfirst]⟩
      | false =>
        refine .inr ⟨hd, rfl, (a :: t).dropLast, ?_⟩
        rw [if_neg (by simp [hfirst, ha]), hfirst, hl.ring.prev_front, dropLast_append_getLast]
  · left
    exact ⟨hd, hdest.resolve_left hd, by rw [if_pos hd]⟩

variable {d : UInt64}

theorem place_getDest {uuid : UInt64} {s : Store}
    (hl : ListAt uuid s h l) (hnodup : l.Nodup) (hzero : ∀ a ∈ l, a ≠ 0)
    (hdest : dest = 0 ∨ dest ∈ l) (before : Bool) (o : UInt64) :
    Place (getDest s h dest before) l ∧
      insertAt (getDest s h dest before) before o l = insertDest dest before o l := by
  rcases getDest_spec hl hzero hdest before with
    ⟨hd, hmem, heq⟩ | ⟨hd, hnil, heq⟩ | ⟨hd, rfl, t, heq⟩ | ⟨hd, rfl, t, heq⟩
  · rw [heq]
    exact ⟨.inr ⟨hd, hmem⟩, by rw [insertAt, if_neg hd, insertDest, if_neg hd]⟩
  · rw [heq]
    refine ⟨.inl ⟨rfl, hnil⟩, ?_⟩
    rw [insertAt, if_pos rfl, insertDest, if_pos hd, hnil]
    split <;> rfl
  · generalize getDest s h dest true = d at heq ⊢
    subst heq
    have hd0 : d ≠ 0 := hzero d mem_cons_self
    refine ⟨.inr ⟨hd0, mem_cons_self⟩, ?_⟩
    rw [insertAt, if_neg hd0, insertDest, if_pos hd]
    simp [insertNextTo, insertBefore]
  · generalize getDest s h dest false = d at heq ⊢
    subst heq
    have hd0 : d ≠ 0 := hzero d (by simp)
    refine ⟨.inr ⟨hd0, by simp⟩, ?_⟩
    rw [insertAt, if_neg hd0, insertDest, if_pos hd]
    simpa [insertNextTo] using insertAfter_getLast o hnodup

/-! ## Moving within one list -/

/-- The object is already before the place, or it is the last element and the place is the
first one. -/
theorem ListAt.move_before {uuid : UInt64} {s : Store}
    (hl : ListAt uuid s h l) (hnodup : l.Nodup) (ho : o ∈ l) (hd : d ∈ l) (hdo : d ≠ o)
    (hprev : prevOf s d = o) :
    ListAt uuid (assign (if s (.firstOff h) ≠ d then [] else updateHeadWrites uuid s h o) s) h
      (insertBefore d o (l.erase o)) := by
  have hnext : nextOf s o = d := hprev ▸ (hl.ring.neighbours hd).2.2
  obtain ⟨l₁, l₂, rfl, hnot⟩ := eq_append_cons_of_mem ho
  rw [erase_append_right _ hnot, erase_cons_head]
  have hring : IsRing (nextOf s) (prevOf s) (o :: (l₂ ++ l₁)) :=
    isRing_append_comm.mp hl.ring
  have hfirst := hl.first
  cases l₂ with
  | nil =>
    -- the object is the last element, so the place is the first one
    cases l₁ with
    | nil => exact absurd (by simpa using hd) hdo
    | cons a l₁ =>
      have had : a = d := hring.next_front.symm.trans hnext
      subst had
      have hhead : s (.firstOff h) = a := by simpa using hfirst
      have hmove : insertBefore a o (a :: l₁ ++ []) = o :: a :: l₁ := by
        simp [insertBefore]
      rw [if_neg (not_not.mpr hhead), hmove]
      refine ListAt.of_updateHead (l := o :: a :: l₁) rfl hl.uuid_or_zero
        (fun b hb => hl.uuids b ?_) ?_
      · simp only [mem_cons, mem_append, not_mem_nil, or_false] at hb ⊢
        tauto
      · simpa using hring
  | cons b l₂ =>
    have hbd : b = d := hring.next_front.symm.trans hnext
    subst hbd
    have hsplit := nodup_append.mp hnodup
    have hbl₁ : b ∉ l₁ := fun hb => hsplit.2.2 b hb b (by simp) rfl
    have hhead : s (.firstOff h) ≠ b := by
      cases l₁ with
      | nil =>
        rw [hfirst]
        exact fun hob => hdo hob.symm
      | cons a l₁ =>
        rw [hfirst]
        exact fun hab => hbl₁ (hab ▸ mem_cons_self)
    rw [if_pos hhead, insertBefore_append o l₂ hbl₁]
    exact hl

/-- The object is already after the place, or it is the first element and the place is the
last one. -/
theorem ListAt.move_after {uuid : UInt64} {s : Store}
    (hl : ListAt uuid s h l) (hnodup : l.Nodup) (ho : o ∈ l) (hd : d ∈ l) (hdo : d ≠ o)
    (hnext : nextOf s d = o) :
    ListAt uuid (assign
        (if s (.firstOff h) ≠ o then [] else updateHeadWrites uuid s h (nextOf s o)) s) h
      (insertAfter d o (l.erase o)) := by
  have hfirst := hl.first
  obtain ⟨l₁, l₂, rfl, hnot⟩ := eq_append_cons_of_mem hd
  have hring : IsRing (nextOf s) (prevOf s) (d :: (l₂ ++ l₁)) :=
    isRing_append_comm.mp hl.ring
  cases l₂ with
  | nil =>
    cases l₁ with
    | nil => exact absurd (mem_singleton.mp ho).symm hdo
    | cons a l₁ =>
      have hao : a = o := hring.next_front.symm.trans hnext
      subst hao
      have hhead : s (.firstOff h) = a := by simpa using hfirst
      have hdl₁ : d ∉ l₁ := fun hmem => hnot (mem_cons_of_mem a hmem)
      have hmove : insertAfter d a ((a :: l₁ ++ [d]).erase a) = (l₁ ++ [d]) ++ [a] := by
        rw [cons_append, erase_cons_head, insertAfter_append a [] hdl₁]
        simp
      have hfront : nextOf s a = ((l₁ ++ [d]) ++ [a]).head?.getD 0 := by
        have hring' : IsRing (nextOf s) (prevOf s) (a :: (l₁ ++ [d])) := by
          simpa using hl.ring
        cases l₁ with
        | nil => exact hring'.next_front
        | cons b l₁ => exact hring'.next_front
      rw [if_neg (not_not.mpr hhead), hmove, hfront]
      refine ListAt.of_updateHead rfl hl.uuid_or_zero (fun b hb => hl.uuids b ?_) ?_
      · simp only [mem_cons, mem_append, not_mem_nil, or_false] at hb ⊢
        tauto
      · rw [isRing_append_comm]
        simpa using hl.ring
  | cons b l₂ =>
    have hbo : b = o := hring.next_front.symm.trans hnext
    subst hbo
    have hsplit := nodup_append.mp hnodup
    have hbl₁ : b ∉ l₁ := fun hb => hsplit.2.2 b hb b (by simp) rfl
    have hhead : s (.firstOff h) ≠ b := by
      cases l₁ with
      | nil =>
        rw [hfirst]
        exact hdo
      | cons a l₁ =>
        rw [hfirst]
        exact fun hab => hbl₁ (hab ▸ mem_cons_self)
    rw [if_pos hhead, erase_append_right _ hbl₁,
      erase_cons_tail (by simpa using hdo), erase_cons_head,
      insertAfter_append b l₂ hnot]
    exact hl

/-- The assignments of `list_move` to the place `d`. -/
def moveWrites (uuid : UInt64) (s : Store) (hOld hNew d : UInt64) (before : Bool)
    (o : UInt64) : List (Word × UInt64) :=
  if hOld = hNew ∧ d = o then []
  else if hOld = hNew ∧ before = true ∧ prevOf s d = o then
    if s (.firstOff hOld) ≠ d then [] else updateHeadWrites uuid s hOld o
  else if hOld = hNew ∧ before = false ∧ nextOf s d = o then
    if s (.firstOff hOld) ≠ o then [] else updateHeadWrites uuid s hOld (nextOf s o)
  else removeWrites uuid s hOld o ++
    (insertWrites uuid s hNew d before o ++ fillWrites o (insertOffs s d before o))

theorem ListAt.move {uuid : UInt64} {s : Store}
    (hl : ListAt uuid s h l) (hnodup : l.Nodup) (ho : o ∈ l) (hd : d ∈ l) (hd0 : d ≠ 0)
    (hdo : d ≠ o) (before : Bool) :
    ListAt uuid (assign (moveWrites uuid s h h d before o) s) h
      (insertNextTo d before o (l.erase o)) := by
  rw [moveWrites, if_neg (by simp [hdo])]
  by_cases hbefore : before = true ∧ prevOf s d = o
  · obtain ⟨rfl, hprev⟩ := hbefore
    rw [if_pos ⟨rfl, rfl, hprev⟩, insertNextTo, if_pos rfl]
    exact hl.move_before hnodup ho hd hdo hprev
  · rw [if_neg (by simpa using hbefore)]
    by_cases hafter : before = false ∧ nextOf s d = o
    · obtain ⟨rfl, hnext⟩ := hafter
      rw [if_pos ⟨rfl, rfl, hnext⟩, insertNextTo, if_neg Bool.false_ne_true]
      exact hl.move_after hnodup ho hd hdo hnext
    · rw [if_neg (by simpa using hafter), assign_append]
      -- the insertion reads the same values before and after the removal
      have hreads := sameReads_of_not_adjacent hl hnodup ho hd hdo
        (fun hb hp => hbefore ⟨hb, hp⟩) (fun hb hn => hafter ⟨hb, hn⟩)
      obtain ⟨hwrites, hoffs⟩ := hreads.insert_eq uuid o
      rw [← hwrites, ← hoffs]
      have hremoved := hl.remove hnodup ho
      have hmem : d ∈ l.erase o := (mem_erase_of_ne hdo).mpr hd
      have hnot : o ∉ l.erase o := hnodup.not_mem_erase
      have huuid : HasUuid uuid (assign (removeWrites uuid s h o) s) o := by
        unfold HasUuid
        rw [(removeWrites_uuid o).1, (removeWrites_uuid o).2]
        exact hl.uuids o ho
      have hins := hremoved.insert (hnodup.erase o) (.inr ⟨hd0, hmem⟩) hnot huuid before
      rwa [insertAt, if_neg hd0] at hins

theorem moveWrites_of {uuid : UInt64} {s : Store}
    (hl : ListAt uuid s h l) (ho : o ∈ l) (hd : Place d l) (before : Bool) :
    ∀ w ∈ moveWrites uuid s h h d before o, Word.Of h l w.1 := by
  intro w hw
  unfold moveWrites at hw
  split at hw
  · cases hw
  · split at hw
    · split at hw
      · cases hw
      · exact updateHeadWrites_of l w hw
    · split at hw
      · split at hw
        · cases hw
        · exact updateHeadWrites_of l w hw
      · rw [mem_append, mem_append] at hw
        rcases hw with hw | hw | hw
        · exact removeWrites_of hl ho w hw
        · exact insertWrites_of hl hd before w hw
        · exact fillWrites_of h ho w hw

/-! ## The logs of the calls -/

def addAll (p : Pool) (peOffset : UInt64) (ws : List (Word × UInt64)) (ctx : OperationContext) :
    OperationContext :=
  ws.foldl (fun ctx w => operationAddEntry p (w.1.addr peOffset) w.2 .set ctx) ctx

def toAddrs (peOffset : UInt64) (ws : List (Word × UInt64)) : List (UInt64 × UInt64) :=
  ws.map fun w => (w.1.addr peOffset, w.2)

theorem addAll_append (p : Pool) (peOffset : UInt64) (ws ws' : List (Word × UInt64))
    (ctx : OperationContext) :
    addAll p peOffset (ws ++ ws') ctx = addAll p peOffset ws' (addAll p peOffset ws ctx) := by
  simp [addAll]

theorem assigns_addAll {p : Pool} {peOffset : UInt64}
    {ctx ctx' : OperationContext} {ws₀ : List (UInt64 × UInt64)} (h : Assigns ctx ctx' ws₀)
    (hvalid : ∀ w ∈ ws, p.offIsValid (w.1.addr peOffset) = true) :
    Assigns ctx (addAll p peOffset ws ctx') (ws₀ ++ toAddrs peOffset ws) := by
  induction ws generalizing ctx' ws₀ with
  | nil => simpa [addAll, toAddrs] using h
  | cons w ws ih =>
    rw [forall_mem_cons] at hvalid
    have hrest := ih (h.add hvalid.1 w.2) hvalid.2
    simpa [addAll, toAddrs] using hrest

section

variable (p : Pool) (peOffset : UInt64) (m : Mem) (ctx : OperationContext)

theorem listUpdateHead_eq (h v : UInt64) : listUpdateHead p peOffset m h v ctx =
    addAll p peOffset (updateHeadWrites p.uuidLo (view peOffset m) h v) ctx := by
  unfold listUpdateHead updateHeadWrites addAll
  dsimp only
  by_cases hzero : view peOffset m (.firstUuid h) = 0
  · rw [if_pos hzero, if_pos hzero]
    rfl
  · rw [if_neg hzero, if_neg hzero]
    rfl

theorem listRemoveSingle_eq (h o : UInt64) : listRemoveSingle p peOffset m h o ctx =
    addAll p peOffset (removeWrites p.uuidLo (view peOffset m) h o) ctx := by
  unfold listRemoveSingle removeWrites
  simp only [listUpdateHead_eq]
  by_cases hloop : nextOf (view peOffset m) o = o
  · rw [if_pos hloop]
    exact if_pos hloop
  · rw [if_neg hloop, addAll_append]
    refine (if_neg hloop).trans ?_
    split <;> rfl

theorem listInsertUser_eq (h d : UInt64) (before : Bool) (o : UInt64) :
    listInsertUser p peOffset m h d before o ctx =
      (insertOffs (view peOffset m) d before o,
        addAll p peOffset (insertWrites p.uuidLo (view peOffset m) h d before o) ctx) := by
  unfold listInsertUser insertOffs insertWrites
  simp only [listUpdateHead_eq, listInsertBefore, listInsertAfter]
  split
  · rfl
  · split
    · rw [addAll_append]
      split <;> rfl
    · rfl

theorem listFillEntryRedoLog_eq (o : UInt64) (offs : UInt64 × UInt64) :
    listFillEntryRedoLog p peOffset o offs.1 offs.2 ctx =
      addAll p peOffset (fillWrites o offs) ctx := rfl

theorem listGetDest_eq (h dest : UInt64) (before : Bool) :
    listGetDest peOffset m h dest before = getDest (view peOffset m) h dest before := rfl

theorem listMove_eq (prev : OperationContext) (hOld hNew dest : UInt64) (before : Bool)
    (o : UInt64) : listMove p prev m peOffset hOld peOffset hNew dest before o =
      operationFinish (addAll p peOffset
        (moveWrites p.uuidLo (view peOffset m) hOld hNew
          (getDest (view peOffset m) hNew dest before) before o) (operationStart prev)) m := by
  unfold listMove moveWrites
  simp only [listGetDest_eq, listRemoveSingle_eq, listInsertUser_eq, listFillEntryRedoLog_eq,
    listUpdateHead_eq, ne_eq, not_true_eq_false, if_false]
  generalize getDest (view peOffset m) hNew dest before = d
  change (if hOld = hNew ∧ d = o then _
    else if hOld = hNew ∧ before = true ∧ prevOf (view peOffset m) d = o then
      if ¬ view peOffset m (.firstOff hOld) = d then _ else _
    else if hOld = hNew ∧ before = false ∧ nextOf (view peOffset m) d = o then
      if ¬ view peOffset m (.firstOff hOld) = o then _ else _
    else _) = _
  by_cases hsame : hOld = hNew ∧ d = o
  · rw [if_pos hsame, if_pos hsame]
    rfl
  · rw [if_neg hsame, if_neg hsame]
    by_cases hbefore : hOld = hNew ∧ before = true ∧ prevOf (view peOffset m) d = o
    · rw [if_pos hbefore, if_pos hbefore]
      split <;> rfl
    · rw [if_neg hbefore, if_neg hbefore]
      by_cases hafter : hOld = hNew ∧ before = false ∧ nextOf (view peOffset m) d = o
      · rw [if_pos hafter, if_pos hafter]
        split <;> rfl
      · rw [if_neg hafter, if_neg hafter, addAll_append, addAll_append]

end

/-! ## Operations on represented lists -/

section

variable {uuid : UInt64} {heads objs : Set UInt64} {s : Store} {seqs : UInt64 → List UInt64}
  {h o dest : UInt64}

def uuidWrites (uuid o : UInt64) : List (Word × UInt64) :=
  [(.nextUuid o, uuid), (.prevUuid o, uuid)]

def insertAllWrites (uuid : UInt64) (s : Store) (h dest : UInt64) (before : Bool) (o : UInt64) :
    List (Word × UInt64) :=
  uuidWrites uuid o ++ (insertWrites uuid s h (getDest s h dest before) before o ++
    fillWrites o (insertOffs s (getDest s h dest before) before o))

theorem mem_insertAt {before : Bool}
    (hd : Place d l) : a ∈ insertAt d before o l ↔ a = o ∨ a ∈ l := by
  rcases hd with ⟨rfl, rfl⟩ | ⟨hd0, hd⟩
  · simp [insertAt]
  · obtain ⟨l₁, l₂, rfl, hnot⟩ := eq_append_cons_of_mem hd
    rw [insertAt, if_neg hd0, insertNextTo]
    split
    · rw [insertBefore_append o l₂ hnot]
      simp only [mem_append, mem_cons]
      tauto
    · rw [insertAfter_append o l₂ hnot]
      simp only [mem_append, mem_cons]
      tauto

theorem nodup_insertAt {before : Bool} (hd : Place d l)
    (hnodup : l.Nodup) (ho : o ∉ l) : (insertAt d before o l).Nodup := by
  rcases hd with ⟨rfl, rfl⟩ | ⟨hd0, hd⟩
  · simp [insertAt]
  · obtain ⟨l₁, l₂, rfl, hnot⟩ := eq_append_cons_of_mem hd
    have hcons : (o :: (l₁ ++ d :: l₂)).Nodup := nodup_cons.mpr ⟨ho, hnodup⟩
    rw [insertAt, if_neg hd0, insertNextTo]
    split
    · rw [insertBefore_append o l₂ hnot]
      exact (perm_middle.nodup_iff).mpr hcons
    · rw [insertAfter_append o l₂ hnot]
      have hperm : (l₁ ++ d :: o :: l₂).Perm (o :: (l₁ ++ d :: l₂)) := by
        have happ : l₁ ++ d :: o :: l₂ = (l₁ ++ [d]) ++ o :: l₂ := by simp
        have happ' : l₁ ++ d :: l₂ = (l₁ ++ [d]) ++ l₂ := by simp
        rw [happ, happ']
        exact perm_middle
      exact (hperm.nodup_iff).mpr hcons

/-- The conditions under which the object `o` can be inserted at `dest`. -/
structure Insertable (heads objs : Set UInt64) (seqs : UInt64 → List UInt64) (h dest o : UInt64) :
    Prop where
  head : h ∈ heads
  obj : o ∈ objs
  fresh : ∀ h' ∈ heads, o ∉ seqs h'
  dest : dest = 0 ∨ dest ∈ seqs h

section

variable (hr : Represents uuid heads objs s seqs)

include hr

theorem insertAllWrites_of
    (hzero : ∀ a ∈ objs, a ≠ 0) (hi : Insertable heads objs seqs h dest o) (before : Bool) :
    ∀ w ∈ insertAllWrites uuid s h dest before o, Word.Of h (o :: seqs h) w.1 := by
  have hl := hr.listAt h hi.head
  obtain ⟨hplace, -⟩ := place_getDest hl (hr.nodup h hi.head)
    (fun a ha => hzero a (hr.mem h hi.head a ha)) hi.dest before o
  intro w hw
  unfold insertAllWrites uuidWrites at hw
  simp only [mem_append, mem_cons, not_mem_nil, or_false] at hw
  rcases hw with (rfl | rfl) | hw | hw
  · exact mem_cons_self
  · exact mem_cons_self
  · exact (insertWrites_of hl hplace before w hw).cons
  · exact fillWrites_of h mem_cons_self w hw

theorem Represents.insert
    (hzero : ∀ a ∈ objs, a ≠ 0) (hi : Insertable heads objs seqs h dest o) (before : Bool) :
    Represents uuid heads objs (assign (insertAllWrites uuid s h dest before o) s)
      (Function.update seqs h (insertDest dest before o (seqs h))) := by
  have hl := hr.listAt h hi.head
  have hnodup := hr.nodup h hi.head
  have hfresh := hi.fresh h hi.head
  obtain ⟨hplace, hplaced⟩ := place_getDest hl hnodup
    (fun a ha => hzero a (hr.mem h hi.head a ha)) hi.dest before o
  refine hr.update hi.head hi.obj (fun h' hh' _ => hi.fresh h' hh')
    (insertAllWrites_of hr hzero hi before) ?_ ?_ ?_
  · rw [← hplaced]
    exact nodup_insertAt hplace hnodup hfresh
  · intro a ha
    rw [← hplaced] at ha
    exact (mem_insertAt hplace).mp ha
  · -- the pool identifiers of the entry are not read by the insertion
    have hl₁ : ListAt uuid (assign (uuidWrites uuid o) s) h (seqs h) := by
      refine hl.frame fun w hw hof => ?_
      simp only [uuidWrites, mem_cons, not_mem_nil, or_false] at hw
      rcases hw with rfl | rfl <;> exact hfresh hof
    have huuid : HasUuid uuid (assign (uuidWrites uuid o) s) o := by
      simp [HasUuid, uuidWrites]
    have hreads : SameReads s (assign (uuidWrites uuid o) s) h (getDest s h dest before) before :=
      ⟨by simp [uuidWrites], fun _ _ => by simp [uuidWrites, prevOf],
        fun _ _ => by simp [uuidWrites, nextOf], fun _ _ => by simp [uuidWrites]⟩
    obtain ⟨hwrites, hoffs⟩ := hreads.insert_eq uuid o
    rw [insertAllWrites, assign_append, ← hplaced, ← hwrites, ← hoffs]
    exact hl₁.insert hnodup hplace hfresh huuid before

/-- The assignments of `list_remove_single`, possibly with others to the removed object. -/
theorem Represents.remove (hh : h ∈ heads)
    (ho : o ∈ seqs h) (ws : List (Word × UInt64)) (hws : ∀ w ∈ ws, ∃ v, w = (.nextOff o, v) ∨
      w = (.prevOff o, v)) :
    Represents uuid heads objs (assign (removeWrites uuid s h o ++ ws) s)
      (Function.update seqs h ((seqs h).erase o)) := by
  have hl := hr.listAt h hh
  have hnodup := hr.nodup h hh
  refine hr.update hh (hr.mem h hh o ho) (fun h' hh' hne hmem =>
    hr.disjoint h hh h' hh' hne.symm ho hmem) ?_ (hnodup.erase o)
    (fun a ha => .inr (mem_of_mem_erase ha)) ?_
  · intro w hw
    rcases mem_append.mp hw with hw | hw
    · exact (removeWrites_of hl ho w hw).cons
    · obtain ⟨v, rfl | rfl⟩ := hws w hw <;> exact mem_cons_self
  · rw [assign_append]
    refine (hl.remove hnodup ho).frame fun w hw hof => ?_
    obtain ⟨v, rfl | rfl⟩ := hws w hw <;> exact hnodup.not_mem_erase hof

end

/-- Within one list, a null destination is resolved before the object is taken out; this is
the same as resolving it afterwards. -/
theorem insertDest_erase {hd : UInt64} (hl : ListAt uuid s hd l)
    (hnodup : l.Nodup) (hzero : ∀ a ∈ l, a ≠ 0) (hdest : dest = 0 ∨ dest ∈ l) (ho : o ∈ l)
    (hne : dest ≠ o) (before : Bool) :
    (getDest s hd dest before = o ∧ insertDest dest before o (l.erase o) = l) ∨
    (getDest s hd dest before ≠ o ∧ getDest s hd dest before ∈ l ∧
      insertDest dest before o (l.erase o) =
        insertNextTo (getDest s hd dest before) before o (l.erase o)) := by
  rcases getDest_spec hl hzero hdest before with
    ⟨hd, hmem, heq⟩ | ⟨hd, rfl, heq⟩ | ⟨hd, rfl, t, heq⟩ | ⟨hd, rfl, t, heq⟩
  · rw [heq]
    exact .inr ⟨hne, hmem, by rw [insertDest, if_neg hd]⟩
  · cases ho
  · generalize getDest s _ dest true = d at heq ⊢
    subst heq
    rw [insertDest, if_pos hd, if_pos rfl]
    by_cases hdo : d = o
    · subst hdo
      exact .inl ⟨rfl, by rw [erase_cons_head]⟩
    · refine .inr ⟨hdo, mem_cons_self, ?_⟩
      rw [erase_cons_tail (by simpa using hdo)]
      simp [insertNextTo, insertBefore]
  · generalize getDest s _ dest false = d at heq ⊢
    subst heq
    rw [insertDest, if_pos hd, if_neg Bool.false_ne_true]
    have hnot : d ∉ t := fun hdt =>
      (nodup_append.mp hnodup).2.2 d hdt d (mem_singleton_self d) rfl
    by_cases hdo : d = o
    · subst hdo
      refine .inl ⟨rfl, ?_⟩
      rw [erase_append_right _ hnot]
      simp
    · have hot : o ∈ t := by
        rcases mem_append.mp ho with hot | hot
        · exact hot
        · exact absurd (mem_singleton.mp hot).symm hdo
      have hnodup' : ((t ++ [d]).erase o).Nodup := hnodup.erase o
      rw [erase_append_left _ hot] at hnodup' ⊢
      exact .inr ⟨hdo, by simp, by
        rw [insertNextTo, if_neg Bool.false_ne_true, insertAfter_getLast o hnodup']⟩

def moveSeqs (hOld hNew dest : UInt64) (before : Bool) (o : UInt64)
    (seqs : UInt64 → List UInt64) : UInt64 → List UInt64 :=
  if dest = o then seqs
  else
    let seqs := Function.update seqs hOld ((seqs hOld).erase o)
    Function.update seqs hNew (insertDest dest before o (seqs hNew))

theorem Represents.move_same (hr : Represents uuid heads objs s seqs)
    (hzero : ∀ a ∈ objs, a ≠ 0) (hh : h ∈ heads) (ho : o ∈ seqs h)
    (hdest : dest = 0 ∨ dest ∈ seqs h) (before : Bool) :
    Represents uuid heads objs (assign (moveWrites uuid s h h (getDest s h dest before) before o) s)
      (moveSeqs h h dest before o seqs) := by
  have hl := hr.listAt h hh
  have hnodup := hr.nodup h hh
  have hzero' : ∀ a ∈ seqs h, a ≠ 0 := fun a ha => hzero a (hr.mem h hh a ha)
  have hplace := (place_getDest hl hnodup hzero' hdest before o).1
  unfold moveSeqs
  by_cases hne : dest = o
  · have hd : getDest s h dest before = o := by
      rw [getDest, if_pos (hne ▸ hzero' o ho), hne]
    rw [if_pos hne, hd, moveWrites, if_pos ⟨rfl, rfl⟩]
    exact hr
  · rw [if_neg hne]
    simp only [Function.update_self, Function.update_idem]
    rcases insertDest_erase hl hnodup hzero' hdest ho hne before with
      ⟨hd, heq⟩ | ⟨hd, hmem, heq⟩
    · rw [heq, Function.update_eq_self, hd, moveWrites, if_pos ⟨rfl, rfl⟩]
      exact hr
    · have hd0 := hzero' _ hmem
      have hnot : o ∉ (seqs h).erase o := hnodup.not_mem_erase
      have hplace' : Place (getDest s h dest before) ((seqs h).erase o) :=
        .inr ⟨hd0, (mem_erase_of_ne hd).mpr hmem⟩
      have hat : insertNextTo (getDest s h dest before) before o ((seqs h).erase o) =
          insertAt (getDest s h dest before) before o ((seqs h).erase o) := by
        rw [insertAt, if_neg hd0]
      rw [heq]
      refine hr.update hh (hr.mem h hh o ho)
        (fun h' hh' hne' hmem' => hr.disjoint h hh h' hh' hne'.symm ho hmem')
        (fun w hw => (moveWrites_of hl ho hplace before w hw).cons) ?_ ?_ ?_
      · rw [hat]
        exact nodup_insertAt hplace' (hnodup.erase o) hnot
      · intro a ha
        rw [hat, mem_insertAt hplace'] at ha
        exact ha.imp_right mem_of_mem_erase
      · exact hl.move hnodup ho hmem hd0 hd before

theorem Represents.move_other {hOld hNew : UInt64} (hr : Represents uuid heads objs s seqs)
    (hzero : ∀ a ∈ objs, a ≠ 0) (hhOld : hOld ∈ heads) (hhNew : hNew ∈ heads)
    (hne : hOld ≠ hNew) (ho : o ∈ seqs hOld) (hdest : dest = 0 ∨ dest ∈ seqs hNew) (before : Bool) :
    Represents uuid heads objs
      (assign (moveWrites uuid s hOld hNew (getDest s hNew dest before) before o) s)
      (moveSeqs hOld hNew dest before o seqs) := by
  have hdisj := hr.disjoint hOld hhOld hNew hhNew hne
  have hlOld := hr.listAt hOld hhOld
  have hlNew := hr.listAt hNew hhNew
  have hnodup := hr.nodup hNew hhNew
  obtain ⟨hplace, hplaced⟩ := place_getDest hlNew hnodup
    (fun a ha => hzero a (hr.mem hNew hhNew a ha)) hdest before o
  have hdesto : dest ≠ o := by
    rintro rfl
    exact hdisj ho (hdest.resolve_left (hzero dest (hr.mem hOld hhOld dest ho)))
  rw [moveSeqs, if_neg hdesto, moveWrites, if_neg (by simp [hne]), if_neg (by simp [hne]),
    if_neg (by simp [hne]), assign_append]
  have hr₁ : Represents uuid heads objs (assign (removeWrites uuid s hOld o) s)
      (Function.update seqs hOld ((seqs hOld).erase o)) := by
    simpa using hr.remove hhOld ho [] (by simp)
  -- the words of the new list are not touched by the removal
  have hsame : ∀ w, Word.Of hNew (seqs hNew) w →
      assign (removeWrites uuid s hOld o) s w = s w := fun w hw =>
    assign_of_forall_ne s fun w' hw' heq =>
      (removeWrites_of hlOld ho w' hw').not_of_disjoint hne hdisj (heq ▸ hw)
  have hreads : SameReads s (assign (removeWrites uuid s hOld o) s) hNew
      (getDest s hNew dest before) before := by
    have hmem : getDest s hNew dest before ≠ 0 → getDest s hNew dest before ∈ seqs hNew :=
      fun hd0 => (hplace.resolve_left fun h => hd0 h.1).2
    refine ⟨hsame (.firstUuid hNew) rfl, fun hd0 _ => hsame (.prevOff _) (hmem hd0),
      fun hd0 _ => hsame (.nextOff _) (hmem hd0), fun _ _ => ?_⟩
    rw [hsame (.firstOff hNew) rfl]
  obtain ⟨hwrites, hoffs⟩ := hreads.insert_eq uuid o
  have hl₁ : ListAt uuid (assign (removeWrites uuid s hOld o) s) hNew (seqs hNew) :=
    hlNew.congr hsame
  have huuid : HasUuid uuid (assign (removeWrites uuid s hOld o) s) o := by
    unfold HasUuid
    rw [(removeWrites_uuid o).1, (removeWrites_uuid o).2]
    exact hlOld.uuids o ho
  have hseqs : Function.update seqs hOld ((seqs hOld).erase o) hNew = seqs hNew :=
    Function.update_of_ne hne.symm _ _
  have hother : ∀ h' ∈ heads, h' ≠ hNew →
      o ∉ Function.update seqs hOld ((seqs hOld).erase o) h' := by
    intro h' hh' _
    by_cases heq : h' = hOld
    · rw [heq, Function.update_self]
      exact (hr.nodup hOld hhOld).not_mem_erase
    · rw [Function.update_of_ne heq]
      exact fun hmem => hr.disjoint hOld hhOld h' hh' (Ne.symm heq) ho hmem
  have hnot : o ∉ seqs hNew := fun hmem => hdisj ho hmem
  rw [← hwrites, ← hoffs]
  simp only [hseqs, ← hplaced]
  refine hr₁.update hhNew (hr.mem hOld hhOld o ho) hother ?_
    (nodup_insertAt hplace hnodup hnot) ?_ (hl₁.insert hnodup hplace hnot huuid before)
  · rw [hseqs]
    intro w hw
    rcases mem_append.mp hw with hw | hw
    · exact (insertWrites_of hl₁ hplace before w hw).cons
    · exact fillWrites_of hNew mem_cons_self w hw
  · intro a ha
    rw [hseqs]
    exact (mem_insertAt hplace).mp ha

end

/-! ## Calls -/

/-- A call of `list.c`. -/
inductive Call
  | insert (head dest : UInt64) (before : Bool) (oid : UInt64)
  | insertNew (head dest : UInt64) (before : Bool) (reserved : Option Reserved)
      (oidp : Option UInt64) (heap : HeapEntries)
  | remove (head oid : UInt64)
  | removeFree (head oid : UInt64) (oidp : Option UInt64) (heap : HeapEntries)
  | move (headOld headNew dest : UInt64) (before : Bool) (oid : UInt64)

/-- The pool after a call, with the same `pe_offset` for all lists. -/
def Call.exec (p : Pool) (peOffset : UInt64) (prev : OperationContext) (m : Mem) : Call → Mem
  | .insert head dest before oid => listInsert p peOffset prev m head dest before oid
  | .insertNew head dest before reserved oidp heap =>
    (listInsertNew p peOffset prev m head dest before reserved oidp heap).2
  | .remove head oid => listRemove p peOffset prev m head oid
  | .removeFree head oid oidp heap => listRemoveFree p peOffset prev m head oid oidp heap
  | .move headOld headNew dest before oid =>
    listMove p prev m peOffset headOld peOffset headNew dest before oid

def Call.apply (seqs : UInt64 → List UInt64) : Call → UInt64 → List UInt64
  | .insert head dest before oid =>
    Function.update seqs head (insertDest dest before oid (seqs head))
  | .insertNew _ _ _ none _ _ => seqs
  | .insertNew head dest before (some r) _ _ =>
    Function.update seqs head (insertDest dest before r.offset (seqs head))
  | .remove head oid | .removeFree head oid _ _ =>
    Function.update seqs head ((seqs head).erase oid)
  | .move headOld headNew dest before oid => moveSeqs headOld headNew dest before oid seqs

def Call.Touches (seqs : UInt64 → List UInt64) : Call → Word → Prop
  | .insert head _ _ oid => Word.Of head (oid :: seqs head)
  | .insertNew _ _ _ none _ _ => fun _ => False
  | .insertNew head _ _ (some r) _ _ => Word.Of head (r.offset :: seqs head)
  | .remove head _ | .removeFree head _ _ _ => Word.Of head (seqs head)
  | .move headOld headNew _ _ _ => fun w =>
    Word.Of headOld (seqs headOld) w ∨ Word.Of headNew (seqs headNew) w

/-- The identifier at `oidp` and the heap metadata are not list words. -/
structure Elsewhere (peOffset : UInt64) (heads objs : Set UInt64) (oidp : Option UInt64)
    (heap : HeapEntries) : Prop where
  oidp : ∀ a ∈ oidp, ∀ w, Word.In heads objs w →
    w.addr peOffset ≠ a ∧ w.addr peOffset ≠ a + 8
  heap : ∀ e ∈ heap, ∀ w, Word.In heads objs w → w.addr peOffset ≠ e.offset

def Call.Allowed (peOffset : UInt64) (heads objs : Set UInt64) (seqs : UInt64 → List UInt64) :
    Call → Prop
  | .insert head dest _ oid => Insertable heads objs seqs head dest oid
  | .insertNew _ _ _ none _ _ => True
  | .insertNew head dest _ (some r) oidp heap =>
    Insertable heads objs seqs head dest r.offset ∧
      (∀ a ∈ r.construct, ∀ w, Word.In heads objs w → w.addr peOffset = a.1 →
        w = .nextUuid r.offset ∨ w = .nextOff r.offset ∨ w = .prevUuid r.offset ∨
          w = .prevOff r.offset) ∧
      Elsewhere peOffset heads objs oidp heap
  | .remove head oid => head ∈ heads ∧ oid ∈ seqs head
  | .removeFree head oid oidp heap =>
    (head ∈ heads ∧ oid ∈ seqs head) ∧ Elsewhere peOffset heads objs oidp heap
  | .move headOld headNew dest _ oid =>
    headOld ∈ heads ∧ headNew ∈ heads ∧ oid ∈ seqs headOld ∧
      (dest = 0 ∨ dest ∈ seqs headNew)

variable {oidp : Option UInt64}

section

variable {p : Pool} {peOffset : UInt64} {heads objs : Set UInt64}

theorem view_operationFinish (hlayout : Layout p peOffset heads objs) (prev : OperationContext)
    {m : Mem} {s : Store} (hs : ∀ w, Word.In heads objs w → view peOffset m w = s w)
    (hws : ∀ w ∈ ws, Word.In heads objs w.1) :
    ∀ w, Word.In heads objs w → view peOffset (operationFinish (addAll p peOffset ws
      (operationStart prev)) m) w = assign ws s w := by
  have hassigns := assigns_addAll (Assigns.start prev) (fun w hw => hlayout.valid w.1 (hws w hw))
  rw [hassigns.operationFinish m, nil_append]
  exact assign_comp hlayout.inj hs ws hws

theorem effect_addHeap_of_ne (heap : HeapEntries) (ctx : OperationContext) (m : Mem)
    (hheap : ∀ e ∈ heap, a ≠ e.offset) :
    (heap.foldl (fun ctx e => operationAddEntry p e.offset e.value e.type ctx) ctx).effect m a =
      ctx.effect m a := by
  induction heap generalizing ctx with
  | nil => rfl
  | cons e heap ih =>
    rw [forall_mem_cons] at hheap
    rw [foldl_cons, ih _ hheap.2, effect_add_of_ne p ctx m hheap.1]

theorem addHeap_ne_nil (heap : HeapEntries) {ctx : OperationContext}
    (h : ctx.pshadowOps.entries ≠ []) :
    (heap.foldl (fun ctx e => operationAddEntry p e.offset e.value e.type
      ctx) ctx).pshadowOps.entries ≠ [] := by
  induction heap generalizing ctx with
  | nil => exact h
  | cons e heap ih =>
    rw [foldl_cons]
    exact ih (operationAddEntry_ne_nil p h)

/-- What is added for `oidp` and for the heap is not seen on the list words. -/
theorem pallocPublish_elsewhere
    (helse : Elsewhere peOffset heads objs oidp heap) {ctx : OperationContext}
    (hctx : ctx.pshadowOps.entries ≠ []) (m m' : Mem) (obj : UInt64) (inited : Bool)
    (hw : Word.In heads objs w) :
    pallocPublish p heap (setOid p m' oidp obj inited ctx) m (w.addr peOffset) =
      operationFinish ctx m (w.addr peOffset) := by
  have hheap : ∀ e ∈ heap, w.addr peOffset ≠ e.offset := fun e he => helse.heap e he w hw
  unfold pallocPublish operationFinish setOid
  cases oidp with
  | none =>
    dsimp only
    rw [if_neg (addHeap_ne_nil heap hctx), if_neg hctx, effect_addHeap_of_ne heap _ _ hheap]
  | some a =>
    obtain ⟨hne, hne'⟩ := helse.oidp a rfl w hw
    have hset : (listSetOidRedoLog p m' a obj inited ctx).pshadowOps.entries ≠ [] := by
      unfold listSetOidRedoLog
      apply operationAddEntry_ne_nil
      split
      · exact operationAddEntry_ne_nil p hctx
      · exact hctx
    dsimp only
    rw [if_neg (addHeap_ne_nil heap hset), if_neg hctx, effect_addHeap_of_ne heap _ _ hheap]
    unfold listSetOidRedoLog
    dsimp only
    rw [effect_add_of_ne p _ m hne']
    split
    · rw [effect_add_of_ne p _ m hne]
    · rfl

theorem removeWrites_ne_nil (uuid : UInt64) (s : Store) (h o : UInt64) :
    removeWrites uuid s h o ≠ [] := by
  unfold removeWrites updateHeadWrites
  split <;> simp

theorem insertWrites_ne_nil (uuid : UInt64) (s : Store) (h d : UInt64) (before : Bool)
    (o : UInt64) : insertWrites uuid s h d before o ≠ [] := by
  unfold insertWrites updateHeadWrites
  split
  · simp
  · split <;> simp

/-- The pool `m'` represents `seqs'` and has changed at the words in `T` at most. -/
def Refined (p : Pool) (peOffset : UInt64) (heads objs : Set UInt64) (m m' : Mem)
    (seqs' : UInt64 → List UInt64) (T : Word → Prop) : Prop :=
  Represents p.uuidLo heads objs (view peOffset m') seqs' ∧
    ∀ w, Word.In heads objs w → ¬ T w → view peOffset m' w = view peOffset m w

theorem refined_of_assign {m m' : Mem} {s : Store} {seqs' : UInt64 → List UInt64} {T : Word → Prop}
    (hview : ∀ w, Word.In heads objs w → view peOffset m' w = assign ws s w)
    (hs : ∀ w, Word.In heads objs w → ¬ T w → s w = view peOffset m w)
    (hws : ∀ w ∈ ws, T w.1) (hr : Represents p.uuidLo heads objs (assign ws s) seqs') :
    Refined p peOffset heads objs m m' seqs' T := by
  refine ⟨hr.congr fun h hh w hw => hview w (hw.in hh (hr.mem h hh)), fun w hw hT => ?_⟩
  rw [hview w hw, ← hs w hw hT]
  exact assign_of_forall_ne s fun w' hw' heq => hT (heq ▸ hws w' hw')

variable {seqs : UInt64 → List UInt64} {m : Mem} (hlayout : Layout p peOffset heads objs)
  (prev : OperationContext)
include hlayout

theorem refined_listInsert (before : Bool)
    (hr : Represents p.uuidLo heads objs (view peOffset m) seqs)
    (hi : Insertable heads objs seqs head dest oid) :
    Refined p peOffset heads objs m (listInsert p peOffset prev m head dest before oid)
      (Function.update seqs head (insertDest dest before oid (seqs head)))
      (Word.Of head (oid :: seqs head)) := by
  have hof := insertAllWrites_of hr hlayout.ne_zero hi before
  have hin : ∀ w ∈ insertAllWrites p.uuidLo (view peOffset m) head dest before oid,
      Word.In heads objs w.1 := fun w hw =>
    (hof w hw).in hi.head (forall_mem_cons.mpr ⟨hi.obj, hr.mem head hi.head⟩)
  refine refined_of_assign ?_ (fun _ _ _ => rfl) hof (hr.insert hlayout.ne_zero hi before)
  rw [insertAllWrites, forall_mem_append] at hin
  -- the pool identifiers are written first, outside of the redo log
  have huuid : ∀ w, Word.In heads objs w → view peOffset (setUuid p peOffset m oid) w =
      assign (uuidWrites p.uuidLo oid) (view peOffset m) w :=
    assign_comp hlayout.inj (fun _ _ => rfl) _ hin.1
  intro w hw
  rw [insertAllWrites, assign_append]
  simp only [listInsert, listInsertUser_eq, listFillEntryRedoLog_eq, ← addAll_append,
    listGetDest_eq]
  exact view_operationFinish hlayout prev huuid hin.2 w hw

theorem refined_listRemove
    (hr : Represents p.uuidLo heads objs (view peOffset m) seqs) (hh : head ∈ heads)
    (ho : oid ∈ seqs head) :
    Refined p peOffset heads objs m (listRemove p peOffset prev m head oid)
      (Function.update seqs head ((seqs head).erase oid)) (Word.Of head (seqs head)) := by
  have hof : ∀ w ∈ removeWrites p.uuidLo (view peOffset m) head oid ++ fillWrites oid (0, 0),
      Word.Of head (seqs head) w.1 := by
    rw [forall_mem_append]
    exact ⟨removeWrites_of (hr.listAt head hh) ho, fillWrites_of head ho⟩
  refine refined_of_assign ?_ (fun _ _ _ => rfl) hof (hr.remove hh ho _ ?_)
  · intro w hw
    rw [listRemove, listRemoveSingle_eq, listFillEntryRedoLog_eq p peOffset _ oid (0, 0),
      ← addAll_append]
    exact view_operationFinish hlayout prev (fun _ _ => rfl)
      (fun w hw => (hof w hw).in hh (hr.mem head hh)) w hw
  · intro w hw
    simp only [fillWrites, mem_cons, not_mem_nil, or_false] at hw
    rcases hw with rfl | rfl
    · exact ⟨0, .inl rfl⟩
    · exact ⟨0, .inr rfl⟩

theorem refined_listMove {headOld headNew : UInt64} (before : Bool)
    (hr : Represents p.uuidLo heads objs (view peOffset m) seqs) (hhOld : headOld ∈ heads)
    (hhNew : headNew ∈ heads) (ho : oid ∈ seqs headOld) (hdest : dest = 0 ∨ dest ∈ seqs headNew) :
    Refined p peOffset heads objs m
      (listMove p prev m peOffset headOld peOffset headNew dest before oid)
      (moveSeqs headOld headNew dest before oid seqs)
      (fun w => Word.Of headOld (seqs headOld) w ∨ Word.Of headNew (seqs headNew) w) := by
  have hplace := (place_getDest (hr.listAt headNew hhNew) (hr.nodup headNew hhNew)
    (fun a ha => hlayout.ne_zero a (hr.mem headNew hhNew a ha)) hdest before oid).1
  have hof : ∀ w ∈ moveWrites p.uuidLo (view peOffset m) headOld headNew
      (getDest (view peOffset m) headNew dest before) before oid,
      Word.Of headOld (seqs headOld) w.1 ∨ Word.Of headNew (seqs headNew) w.1 := by
    by_cases hsame : headOld = headNew
    · subst hsame
      exact fun w hw => .inl (moveWrites_of (hr.listAt headOld hhOld) ho hplace before w hw)
    · rw [moveWrites, if_neg (by simp [hsame]), if_neg (by simp [hsame]),
        if_neg (by simp [hsame]), forall_mem_append, forall_mem_append]
      exact ⟨fun w hw => .inl (removeWrites_of (hr.listAt headOld hhOld) ho w hw),
        fun w hw => .inr (insertWrites_of (hr.listAt headNew hhNew) hplace before w hw),
        fun w hw => .inl (fillWrites_of headOld ho w hw)⟩
  refine refined_of_assign ?_ (fun _ _ _ => rfl) hof ?_
  · rw [listMove_eq]
    refine view_operationFinish hlayout prev (fun _ _ => rfl) fun w hw => ?_
    rcases hof w hw with hw | hw
    · exact hw.in hhOld (hr.mem headOld hhOld)
    · exact hw.in hhNew (hr.mem headNew hhNew)
  · by_cases hsame : headOld = headNew
    · subst hsame
      exact hr.move_same hlayout.ne_zero hhOld ho hdest before
    · exact hr.move_other hlayout.ne_zero hhOld hhNew hsame ho hdest before

theorem addAll_ne_nil (hne : ws ≠ []) (hws : ∀ w ∈ ws, Word.In heads objs w.1) :
    (addAll p peOffset ws (operationStart prev)).pshadowOps.entries ≠ [] := by
  have hassigns := assigns_addAll (Assigns.start prev) (fun w hw => hlayout.valid w.1 (hws w hw))
  refine hassigns.persistent (.inl ?_)
  simpa [toAddrs] using hne

theorem refined_listRemoveFree
    (hr : Represents p.uuidLo heads objs (view peOffset m) seqs) (hh : head ∈ heads)
    (ho : oid ∈ seqs head) (helse : Elsewhere peOffset heads objs oidp heap) :
    Refined p peOffset heads objs m (listRemoveFree p peOffset prev m head oid oidp heap)
      (Function.update seqs head ((seqs head).erase oid)) (Word.Of head (seqs head)) := by
  have hof := removeWrites_of (hr.listAt head hh) ho
  have hin : ∀ w ∈ removeWrites p.uuidLo (view peOffset m) head oid, Word.In heads objs w.1 :=
    fun w hw => (hof w hw).in hh (hr.mem head hh)
  have hrep : Represents p.uuidLo heads objs
      (assign (removeWrites p.uuidLo (view peOffset m) head oid) (view peOffset m))
      (Function.update seqs head ((seqs head).erase oid)) := by
    simpa using hr.remove hh ho [] (by simp)
  refine refined_of_assign ?_ (fun _ _ _ => rfl) hof hrep
  intro w hw
  simp only [listRemoveFree, listRemoveSingle_eq]
  refine (pallocPublish_elsewhere helse ?_ m m 0 true hw).trans ?_
  · exact addAll_ne_nil hlayout prev (removeWrites_ne_nil _ _ _ _) hin
  · exact view_operationFinish hlayout prev (fun _ _ => rfl) hin w hw

def persistWrites (uuid o : UInt64) (offs : UInt64 × UInt64) : List (Word × UInt64) :=
  [(.nextUuid o, uuid), (.nextOff o, offs.1), (.prevUuid o, uuid), (.prevOff o, offs.2)]

omit hlayout in
theorem assign_persistWrites {uuid : UInt64} {s : Store}
    (hl : ListAt uuid s h l) (hd : Place d l) (ho : o ∉ l) (before : Bool)
    (offs : UInt64 × UInt64) :
    assign (insertWrites uuid s h d before o) (assign (persistWrites uuid o offs) s) =
      assign (uuidWrites uuid o ++ (insertWrites uuid s h d before o ++ fillWrites o offs)) s := by
  have hcomm : ∀ (ws : List (Word × UInt64)) (t : Store),
      (∀ w ∈ ws, w.1 = .nextUuid o ∨ w.1 = .nextOff o ∨ w.1 = .prevUuid o ∨ w.1 = .prevOff o) →
      assign (insertWrites uuid s h d before o) (assign ws t) =
        assign ws (assign (insertWrites uuid s h d before o) t) := by
    intro ws t hws
    refine assign_comm t fun w hw w' hw' heq => ?_
    have hof := insertWrites_of hl hd before w hw
    rw [heq] at hof
    rcases hws w' hw' with hw' | hw' | hw' | hw' <;>
    · rw [hw'] at hof
      exact ho hof
  rw [assign_append, assign_append, hcomm _ _ (by simp [persistWrites]),
    hcomm _ _ (by simp [uuidWrites])]
  generalize assign (insertWrites uuid s h d before o) s = t
  simp only [persistWrites, uuidWrites, fillWrites, assign_cons, assign_nil]
  rw [Function.update_comm (show Word.prevUuid o ≠ Word.nextOff o by simp)]

theorem refined_listInsertNew (before : Bool) {r : Reserved}
    (hr : Represents p.uuidLo heads objs (view peOffset m) seqs)
    (hi : Insertable heads objs seqs head dest r.offset)
    (hconstruct : ∀ a ∈ r.construct, ∀ w, Word.In heads objs w → w.addr peOffset = a.1 →
      w = .nextUuid r.offset ∨ w = .nextOff r.offset ∨ w = .prevUuid r.offset ∨
        w = .prevOff r.offset) (helse : Elsewhere peOffset heads objs oidp heap) :
    Refined p peOffset heads objs m
      (listInsertNew p peOffset prev m head dest before (some r) oidp heap).2
      (Function.update seqs head (insertDest dest before r.offset (seqs head)))
      (Word.Of head (r.offset :: seqs head)) := by
  obtain ⟨obj, construct⟩ := r
  -- the constructor writes the words of the new object only
  have hconstr : ∀ w, Word.In heads objs w → w ≠ .nextUuid obj → w ≠ .nextOff obj →
      w ≠ .prevUuid obj → w ≠ .prevOff obj →
      view peOffset (assign construct m) w = view peOffset m w := by
    intro w hw h₁ h₂ h₃ h₄
    refine assign_of_forall_ne m fun a ha heq => ?_
    rcases hconstruct a ha w hw heq.symm with h | h | h | h
    · exact h₁ h
    · exact h₂ h
    · exact h₃ h
    · exact h₄ h
  have hr₀ : Represents p.uuidLo heads objs (view peOffset (assign construct m)) seqs := by
    refine hr.congr fun h hh w hw => ?_
    have hnot := hi.fresh h hh
    refine hconstr w (hw.in hh (hr.mem h hh)) ?_ ?_ ?_ ?_ <;>
    · rintro rfl
      exact hnot hw
  have hof := insertAllWrites_of hr₀ hlayout.ne_zero hi before
  have hobj : ∀ a ∈ obj :: seqs head, a ∈ objs :=
    forall_mem_cons.mpr ⟨hi.obj, hr.mem head hi.head⟩
  refine refined_of_assign ?_ ?_ hof (hr₀.insert hlayout.ne_zero hi before)
  · have hl := hr₀.listAt head hi.head
    have hplace := (place_getDest hl (hr.nodup head hi.head)
      (fun a ha => hlayout.ne_zero a (hr.mem head hi.head a ha)) hi.dest before obj).1
    intro w hw
    rw [insertAllWrites, ← assign_persistWrites hl hplace (hi.fresh head hi.head) before]
    simp only [listInsertNew, listInsertUser_eq, listGetDest_eq]
    have hin : ∀ w ∈ insertWrites p.uuidLo (view peOffset (assign construct m)) head
        (getDest (view peOffset (assign construct m)) head dest before) before obj,
        Word.In heads objs w.1 := fun w hw =>
      (insertWrites_of hl hplace before w hw).in hi.head (hr.mem head hi.head)
    refine (pallocPublish_elsewhere helse ?_ _ _ obj false hw).trans ?_
    · exact addAll_ne_nil hlayout prev (insertWrites_ne_nil _ _ _ _ _ _) hin
    · refine view_operationFinish hlayout prev ?_ hin w hw
      refine assign_comp hlayout.inj (fun _ _ => rfl) (persistWrites p.uuidLo obj _) ?_
      intro w hw
      simp only [persistWrites, mem_cons, not_mem_nil, or_false] at hw
      rcases hw with rfl | rfl | rfl | rfl <;> exact hi.obj
  · intro w hw hT
    refine hconstr w hw ?_ ?_ ?_ ?_ <;>
    · rintro rfl
      exact hT mem_cons_self

end

/-- Every call refines its meaning on sequences: the pool after it represents the sequences
that the call makes of those before, and no word of another list or of another object has
changed. -/
theorem represents_exec (p : Pool) (peOffset : UInt64) (prev : OperationContext)
    (heads objs : Set UInt64) (m : Mem) (seqs : UInt64 → List UInt64) (call : Call)
    (hlayout : Layout p peOffset heads objs)
    (hr : Represents p.uuidLo heads objs (view peOffset m) seqs)
    (hcall : call.Allowed peOffset heads objs seqs) :
    Represents p.uuidLo heads objs (view peOffset (call.exec p peOffset prev m)) (call.apply seqs) ∧
      ∀ w, Word.In heads objs w → ¬ call.Touches seqs w →
        view peOffset (call.exec p peOffset prev m) w = view peOffset m w := by
  cases call with
  | insert head dest before oid => exact refined_listInsert hlayout prev before hr hcall
  | insertNew head dest before reserved oidp heap =>
    cases reserved with
    | none => exact ⟨hr, fun _ _ _ => rfl⟩
    | some r =>
      obtain ⟨hi, hconstruct, helse⟩ := hcall
      exact refined_listInsertNew hlayout prev before hr hi hconstruct helse
  | remove head oid => exact refined_listRemove hlayout prev hr hcall.1 hcall.2
  | removeFree head oid oidp heap =>
    obtain ⟨⟨hh, ho⟩, helse⟩ := hcall
    exact refined_listRemoveFree hlayout prev hr hh ho helse
  | move headOld headNew dest before oid =>
    obtain ⟨hhOld, hhNew, ho, hdest⟩ := hcall
    exact refined_listMove hlayout prev before hr hhOld hhNew ho hdest

namespace Example

/-! A pool with one list of three objects, in which the first object is moved behind the
second one. -/

def pool : Pool := ⟨7, 512, 65536, 0, 0, 0, 0⟩

def words : List (Word × UInt64) :=
  [(.firstUuid 1024, 7), (.firstOff 1024, 4096),
    (.nextUuid 4096, 7), (.nextOff 4096, 4160), (.prevUuid 4096, 7), (.prevOff 4096, 4224),
    (.nextUuid 4160, 7), (.nextOff 4160, 4224), (.prevUuid 4160, 7), (.prevOff 4160, 4096),
    (.nextUuid 4224, 7), (.nextOff 4224, 4096), (.prevUuid 4224, 7), (.prevOff 4224, 4160)]

def mem : Mem := assign (toAddrs 16 words) fun _ => 0

def seqs : UInt64 → List UInt64 := fun h => if h = 1024 then [4096, 4160, 4224] else []

def heads : Set UInt64 := {1024}

def objs : Set UInt64 := {4096, 4160, 4224}

theorem mem_words (hw : Word.In heads objs w) : w ∈ words.map Prod.fst := by
  cases w with
  | firstUuid h => rw [show h = 1024 from hw]; decide
  | firstOff h => rw [show h = 1024 from hw]; decide
  | nextUuid o => rcases hw with rfl | rfl | rfl <;> decide
  | nextOff o => rcases hw with rfl | rfl | rfl <;> decide
  | prevUuid o => rcases hw with rfl | rfl | rfl <;> decide
  | prevOff o => rcases hw with rfl | rfl | rfl <;> decide

theorem layout : Layout pool 16 heads objs where
  inj := by
    have hall : ∀ w ∈ words.map Prod.fst, ∀ w' ∈ words.map Prod.fst,
        w.addr 16 = w'.addr 16 → w = w' := by decide
    exact fun w hw w' hw' heq => hall w (mem_words hw) w' (mem_words hw') heq
  valid := by
    have hall : ∀ w ∈ words.map Prod.fst, pool.offIsValid (w.addr 16) = true := by decide
    exact fun w hw => hall w (mem_words hw)
  ne_zero := by
    intro o ho
    rcases ho with rfl | rfl | rfl <;> decide

theorem represents : Represents pool.uuidLo heads objs (view 16 mem) seqs where
  nodup := by
    intro h hh
    rw [show h = 1024 from hh]
    decide
  mem := by
    intro h hh o ho
    rw [show h = 1024 from hh] at ho
    simpa [seqs, objs] using ho
  disjoint := by
    intro h hh h' hh' hne
    exact absurd ((show h = 1024 from hh).trans (show h' = 1024 from hh').symm) hne
  listAt := by
    intro h hh
    rw [show h = 1024 from hh]
    have huuids : ∀ o ∈ [4096, 4160, 4224],
        view 16 mem (.nextUuid o) = pool.uuidLo ∧ view 16 mem (.prevUuid o) = pool.uuidLo := by
      simp only [forall_mem_cons, not_mem_nil, false_implies, implies_true, and_true]
      decide
    refine ⟨by decide, .inl (by decide), huuids, ?_⟩
    have hring : ((nextOf (view 16 mem) 4096 = 4160 ∧ prevOf (view 16 mem) 4160 = 4096) ∧
        nextOf (view 16 mem) 4160 = 4224 ∧ prevOf (view 16 mem) 4224 = 4160) ∧
        nextOf (view 16 mem) 4224 = 4096 ∧ prevOf (view 16 mem) 4096 = 4224 := by decide
    simpa [IsRing, Link, seqs] using hring

end Example

theorem represents_exec_move :
    Represents 7 Example.heads Example.objs
      (view 16 ((Call.move 1024 1024 4160 false 4096).exec Example.pool 16 Memops.operationNew
        Example.mem)) (fun h => if h = 1024 then [4160, 4096, 4224] else []) := by
  have hexec := represents_exec Example.pool 16 Memops.operationNew Example.heads Example.objs
    Example.mem Example.seqs (.move 1024 1024 4160 false 4096) Example.layout
    Example.represents ⟨rfl, rfl, by decide, .inr (by decide)⟩
  have hseqs : (Call.move 1024 1024 4160 false 4096).apply Example.seqs =
      fun h => if h = 1024 then [4160, 4096, 4224] else [] := by
    funext h
    by_cases hh : h = 1024
    · rw [hh]
      decide
    · simp [Call.apply, moveSeqs, Example.seqs, hh]
  rw [← hseqs]
  exact hexec.1

end Pmdk.PList
