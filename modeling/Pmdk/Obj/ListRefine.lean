import Pmdk.Lib.Ring
import Pmdk.Obj.List

/-!
# Persistent lists refine sequences

`Represents` relates a pool to the sequences of objects that a set of list heads holds: each head
points to the first object and the entries of the objects form a ring.

The proofs work on the `Store` of list words, which forgets the addresses. Each function of `list.c`
is a sequence of assignments to such words. A move is an insertion into the store that the removal
leaves, because outside of the adjacent positions the removal changes none of the words that the
insertion reads.
-/

namespace Pmdk.PList

open Assign Memops Ring Function List

/-! ## Stores -/

abbrev Store := Word → UInt64

def nextOf (s : Store) : UInt64 → UInt64 := fun o => s (.nextOff o)

def prevOf (s : Store) : UInt64 → UInt64 := fun o => s (.prevOff o)

@[simp] theorem nextOf_update_nextOff (s : Store) (o v : UInt64) :
    nextOf (update s (.nextOff o) v) = update (nextOf s) o v := by
  funext a
  simp [nextOf, update_apply]

@[simp] theorem nextOf_update_prevOff (s : Store) (o v : UInt64) :
    nextOf (update s (.prevOff o) v) = nextOf s := by
  funext a
  simp [nextOf]

@[simp] theorem prevOf_update_prevOff (s : Store) (o v : UInt64) :
    prevOf (update s (.prevOff o) v) = update (prevOf s) o v := by
  funext a
  simp [prevOf, update_apply]

@[simp] theorem prevOf_update_nextOff (s : Store) (o v : UInt64) :
    prevOf (update s (.nextOff o) v) = prevOf s := by
  funext a
  simp [prevOf]

structure ListAt (uuid : UInt64) (s : Store) (h : UInt64) (l : List UInt64) : Prop where
  first : s (.firstOff h) = l.head?.getD 0
  firstUuid : s (.firstUuid h) = uuid ∨ (l = [] ∧ s (.firstUuid h) = 0)
  uuids : ∀ o ∈ l, s (.nextUuid o) = uuid ∧ s (.prevUuid o) = uuid
  ring : IsRing (nextOf s) (prevOf s) l

def Word.Of (h : UInt64) (l : List UInt64) : Word → Prop
  | .firstUuid h' | .firstOff h' => h' = h
  | .nextUuid o | .nextOff o | .prevUuid o | .prevOff o => o ∈ l

variable {l : List UInt64} {h o : UInt64}

theorem ListAt.congr {uuid : UInt64} {s s' : Store}
    (hl : ListAt uuid s h l) (heq : ∀ w, Word.Of h l w → s' w = s w) :
    ListAt uuid s' h l where
  first := (heq (.firstOff h) rfl).trans hl.first
  firstUuid := by
    rw [heq (.firstUuid h) rfl]
    exact hl.firstUuid
  uuids := fun o ho => by
    rw [heq (.nextUuid o) ho, heq (.prevUuid o) ho]
    exact hl.uuids o ho
  ring := hl.ring.congr (fun o ho => heq (.nextOff o) ho) (fun o ho => heq (.prevOff o) ho)

theorem ListAt.frame {uuid : UInt64} {s : Store}
    (hl : ListAt uuid s h l) {ws : List (Word × UInt64)}
    (hws : ∀ w ∈ ws, ¬ Word.Of h l w.1) : ListAt uuid (assign ws s) h l :=
  hl.congr fun _ hw => assign_of_forall_ne s fun w' hw' heq => hws w' hw' (heq ▸ hw)

/-! ## The assignments of each function -/

section

variable (uuid : UInt64) (s : Store)

def updateHeadWrites (h v : UInt64) : List (Word × UInt64) :=
  (.firstOff h, v) :: if s (.firstUuid h) = 0 then [(.firstUuid h, uuid)] else []

def removeWrites (h o : UInt64) : List (Word × UInt64) :=
  if nextOf s o = o then updateHeadWrites uuid s h 0
  else
    [(.prevOff (nextOf s o), prevOf s o), (.nextOff (prevOf s o), nextOf s o)] ++
      if s (.firstOff h) = o then updateHeadWrites uuid s h (nextOf s o) else []

/-- The next and the previous offset of an element inserted at the resolved place `d`. -/
def insertOffs (d : UInt64) (before : Bool) (o : UInt64) : UInt64 × UInt64 :=
  if d = 0 then (o, o) else if before then (d, prevOf s d) else (nextOf s d, d)

def insertWrites (h d : UInt64) (before : Bool) (o : UInt64) : List (Word × UInt64) :=
  if d = 0 then updateHeadWrites uuid s h o
  else if before then
    [(.prevOff d, o), (.nextOff (prevOf s d), o)] ++
      if d = s (.firstOff h) then updateHeadWrites uuid s h o else []
  else [(.nextOff d, o), (.prevOff (nextOf s d), o)]

end

def fillWrites (o : UInt64) (offs : UInt64 × UInt64) : List (Word × UInt64) :=
  [(.nextOff o, offs.1), (.prevOff o, offs.2)]

theorem assign_updateHeadWrites (uuid : UInt64) (s₀ s : Store) (h v : UInt64) (w : Word) :
    assign (updateHeadWrites uuid s₀ h v) s w =
      if w = .firstOff h then v
      else if w = .firstUuid h ∧ s₀ (.firstUuid h) = 0 then uuid else s w := by
  unfold updateHeadWrites
  split
  · rename_i hzero
    by_cases hoff : w = .firstOff h
    · simp [hoff]
    · by_cases huuid : w = .firstUuid h
      · simp [huuid, hzero]
      · simp [hoff, huuid]
  · rename_i hne
    simp [hne, update_apply]

@[simp] theorem nextOf_updateHeadWrites (uuid : UInt64) (s₀ s : Store) (h v : UInt64) :
    nextOf (assign (updateHeadWrites uuid s₀ h v) s) = nextOf s := by
  funext a
  simp [nextOf, assign_updateHeadWrites]

@[simp] theorem prevOf_updateHeadWrites (uuid : UInt64) (s₀ s : Store) (h v : UInt64) :
    prevOf (assign (updateHeadWrites uuid s₀ h v) s) = prevOf s := by
  funext a
  simp [prevOf, assign_updateHeadWrites]

theorem ListAt.of_updateHead {uuid : UInt64} {s₀ s : Store}
    (hhead : s (.firstUuid h) = s₀ (.firstUuid h))
    (hfirst : s₀ (.firstUuid h) = uuid ∨ s₀ (.firstUuid h) = 0)
    (huuids : ∀ o ∈ l, s (.nextUuid o) = uuid ∧ s (.prevUuid o) = uuid)
    (hring : IsRing (nextOf s) (prevOf s) l) :
    ListAt uuid (assign (updateHeadWrites uuid s₀ h (l.head?.getD 0)) s) h l where
  first := by simp [assign_updateHeadWrites]
  firstUuid := by
    left
    rw [assign_updateHeadWrites, hhead]
    rcases hfirst with hfirst | hfirst
    · simp [hfirst]
    · simp [hfirst]
  uuids := fun o ho => by simpa [assign_updateHeadWrites] using huuids o ho
  ring := by simpa using hring

/-- A head whose sequence changes behind its first element is not written. -/
theorem ListAt.of_ring {uuid : UInt64} {s₀ s : Store} {l₀ : List UInt64}
    (hl : ListAt uuid s₀ h l₀) (hhead : s (.firstUuid h) = s₀ (.firstUuid h))
    (hoff : s (.firstOff h) = s₀ (.firstOff h)) (hne : l₀ ≠ []) (hsame : l.head? = l₀.head?)
    (huuids : ∀ o ∈ l, s (.nextUuid o) = uuid ∧ s (.prevUuid o) = uuid)
    (hring : IsRing (nextOf s) (prevOf s) l) : ListAt uuid s h l where
  first := by rw [hoff, hl.first, hsame]
  firstUuid := by
    left
    rw [hhead]
    exact hl.firstUuid.resolve_right fun h => hne h.1
  uuids := huuids
  ring := hring

theorem ListAt.uuid_or_zero {uuid : UInt64} {s : Store}
    (hl : ListAt uuid s h l) : s (.firstUuid h) = uuid ∨ s (.firstUuid h) = 0 :=
  hl.firstUuid.imp_right And.right

/-! ## Removal -/

theorem head?_eq_iff_of_nodup {l₁ l₂ : List UInt64} (hnodup : (l₁ ++ o :: l₂).Nodup) :
    (l₁ ++ o :: l₂).head?.getD 0 = o ↔ l₁ = [] := by
  cases l₁ with
  | nil => simp
  | cons a l₁ =>
    have hne : a ≠ o := by
      rintro rfl
      simp at hnodup
    simpa using hne

theorem ListAt.remove {uuid : UInt64} {s : Store} (hl : ListAt uuid s h l) (hnodup : l.Nodup)
    (ho : o ∈ l) : ListAt uuid (assign (removeWrites uuid s h o) s) h (l.erase o) := by
  obtain ⟨l₁, l₂, rfl, hnot⟩ := eq_append_cons_of_mem ho
  rw [erase_append_right _ hnot, erase_cons_head]
  have hring : IsRing (nextOf s) (prevOf s) (o :: (l₂ ++ l₁)) :=
    isRing_append_comm.mp hl.ring
  have hnodup' : (o :: (l₂ ++ l₁)).Nodup := (nodup_append_comm).mp hnodup
  cases hrest : l₂ ++ l₁ with
  | nil =>
    obtain ⟨rfl, rfl⟩ := append_eq_nil_iff.mp hrest
    have hnext : nextOf s o = o := (isRing_singleton.mp hring).1
    rw [removeWrites, if_pos hnext]
    exact ListAt.of_updateHead (l := []) rfl hl.uuid_or_zero (by simp) isRing_nil
  | cons b t =>
    rw [hrest] at hring hnodup'
    have hnext : nextOf s o = b := hring.next_front
    have hne : nextOf s o ≠ o := by
      rw [hnext]
      exact fun hbo => (nodup_cons.mp hnodup').1 (hbo ▸ mem_cons_self)
    rw [removeWrites, if_neg hne, assign_append]
    -- the two neighbours are linked before the head is looked at
    generalize hs₁ : assign [(.prevOff (nextOf s o), prevOf s o),
      (.nextOff (prevOf s o), nextOf s o)] s = s₁
    have hring₁ : IsRing (nextOf s₁) (prevOf s₁) (l₁ ++ l₂) := by
      rw [isRing_append_comm, hrest, ← hs₁]
      simpa using hring.unlink hnodup'
    have huuids₁ : ∀ a ∈ l₁ ++ l₂, s₁ (.nextUuid a) = uuid ∧ s₁ (.prevUuid a) = uuid := by
      intro a ha
      have hmem : a ∈ l₁ ++ o :: l₂ := by
        rw [mem_append, mem_cons]
        rw [mem_append] at ha
        exact ha.imp_right .inr
      simpa [← hs₁] using hl.uuids a hmem
    have hfirst := hl.first
    by_cases hhead : s (.firstOff h) = o
    · rw [if_pos hhead]
      have hnil : l₁ = [] := (head?_eq_iff_of_nodup hnodup).mp (hfirst.symm.trans hhead)
      subst hnil
      have hfront : nextOf s o = ([] ++ l₂).head?.getD 0 := by
        rw [hnext]
        rw [append_nil] at hrest
        simp [hrest]
      rw [hfront]
      exact ListAt.of_updateHead (by simp [← hs₁]) hl.uuid_or_zero huuids₁ hring₁
    · rw [if_neg hhead]
      have hcons : l₁ ≠ [] := fun hnil =>
        hhead (hfirst.trans ((head?_eq_iff_of_nodup hnodup).mpr hnil))
      refine hl.of_ring (by simp [← hs₁]) (by simp [← hs₁]) (by simp) ?_ huuids₁ hring₁
      rw [head?_append_of_ne_nil _ hcons, head?_append_of_ne_nil _ hcons]

/-! ## Insertion -/

section

variable {α : Type*} [DecidableEq α]

def insertBefore (d x : α) : List α → List α
  | [] => []
  | a :: l => if a = d then x :: a :: l else a :: insertBefore d x l

def insertAfter (d x : α) : List α → List α
  | [] => []
  | a :: l => if a = d then a :: x :: l else a :: insertAfter d x l

theorem insertBefore_append {d : α} (x : α) {l₁ : List α} (l₂ : List α) (h : d ∉ l₁) :
    insertBefore d x (l₁ ++ d :: l₂) = l₁ ++ x :: d :: l₂ := by
  induction l₁ with
  | nil => simp [insertBefore]
  | cons a l₁ ih =>
    rw [mem_cons, not_or] at h
    rw [cons_append, insertBefore, if_neg (Ne.symm h.1), ih h.2, cons_append]

theorem insertAfter_append {d : α} (x : α) {l₁ : List α} (l₂ : List α) (h : d ∉ l₁) :
    insertAfter d x (l₁ ++ d :: l₂) = l₁ ++ d :: x :: l₂ := by
  induction l₁ with
  | nil => simp [insertAfter]
  | cons a l₁ ih =>
    rw [mem_cons, not_or] at h
    rw [cons_append, insertAfter, if_neg (Ne.symm h.1), ih h.2, cons_append]

/-- Insert `x` next to `d`, which is one of the elements. -/
def insertNextTo (d : α) (before : Bool) (x : α) (l : List α) : List α :=
  if before then insertBefore d x l else insertAfter d x l

end

def HasUuid (uuid : UInt64) (s : Store) (o : UInt64) : Prop :=
  s (.nextUuid o) = uuid ∧ s (.prevUuid o) = uuid

theorem ListAt.insert_first {uuid : UInt64} {s : Store}
    (hl : ListAt uuid s h []) (ho : HasUuid uuid s o) (before : Bool) :
    ListAt uuid (assign (insertWrites uuid s h 0 before o ++
      fillWrites o (insertOffs s 0 before o)) s) h [o] := by
  rw [assign_append, insertWrites, if_pos rfl, insertOffs, if_pos rfl]
  have huuid := hl.uuid_or_zero
  refine ⟨?_, .inl ?_, ?_, ?_⟩
  · simp [fillWrites, assign_updateHeadWrites]
  · rcases huuid with huuid | huuid <;> simp [fillWrites, assign_updateHeadWrites, huuid]
  · simpa [fillWrites, assign_updateHeadWrites, HasUuid] using ho
  · simp [fillWrites]

theorem uuids_of_insert {uuid : UInt64} {s t : Store} {l' : List UInt64}
    (huuids : ∀ a ∈ l, s (.nextUuid a) = uuid ∧ s (.prevUuid a) = uuid) (ho : HasUuid uuid s o)
    (hsub : ∀ a ∈ l', a = o ∨ a ∈ l)
    (ht : ∀ a, t (.nextUuid a) = s (.nextUuid a) ∧ t (.prevUuid a) = s (.prevUuid a)) :
    ∀ a ∈ l', t (.nextUuid a) = uuid ∧ t (.prevUuid a) = uuid := by
  intro a ha
  rw [(ht a).1, (ht a).2]
  rcases hsub a ha with rfl | hmem
  · exact ho
  · exact huuids a hmem

variable {d : UInt64}

theorem ListAt.insert_before {uuid : UInt64} {s : Store} (hl : ListAt uuid s h l)
    (hnodup : l.Nodup) (hd : d ∈ l) (hd0 : d ≠ 0) (ho : o ∉ l) (huuid : HasUuid uuid s o) :
    ListAt uuid (assign (insertWrites uuid s h d true o ++
      fillWrites o (insertOffs s d true o)) s) h (insertBefore d o l) := by
  obtain ⟨l₁, l₂, rfl, hnot⟩ := eq_append_cons_of_mem hd
  rw [insertBefore_append o l₂ hnot]
  have hring : IsRing (nextOf s) (prevOf s) (d :: (l₂ ++ l₁)) :=
    isRing_append_comm.mp hl.ring
  have hnodup' : (d :: (l₂ ++ l₁)).Nodup := nodup_append_comm.mp hnodup
  have ho' : o ∉ d :: (l₂ ++ l₁) := by
    simp only [mem_append, mem_cons, not_or] at ho ⊢
    exact ⟨ho.2.1, ho.2.2, ho.1⟩
  have hlinked := hring.linkBefore hnodup' ho'
  have hrotate : IsRing (update (update (nextOf s) (prevOf s d) o) o d)
      (update (update (prevOf s) d o) o (prevOf s d))
      (l₁ ++ o :: d :: l₂) :=
    isRing_append_comm.mpr hlinked
  have hsub : ∀ a ∈ l₁ ++ o :: d :: l₂, a = o ∨ a ∈ l₁ ++ d :: l₂ := by
    intro a ha
    simp only [mem_append, mem_cons] at ha ⊢
    tauto
  rw [assign_append, insertWrites, if_neg hd0, if_pos rfl, insertOffs, if_neg hd0, if_pos rfl,
    assign_append]
  by_cases hhead : d = s (.firstOff h)
  · have hnil : l₁ = [] :=
      (head?_eq_iff_of_nodup hnodup).mp (hl.first.symm.trans hhead.symm)
    rw [if_pos hhead]
    refine ⟨?_, .inl ?_, uuids_of_insert hl.uuids huuid hsub ?_, ?_⟩
    · simp [fillWrites, assign_updateHeadWrites, hnil]
    · rcases hl.uuid_or_zero with hu | hu <;> simp [fillWrites, assign_updateHeadWrites, hu]
    · intro a
      simp [fillWrites, assign_updateHeadWrites]
    · simpa [fillWrites] using hrotate
  · have hcons : l₁ ≠ [] := fun hnil =>
      hhead (hl.first.trans ((head?_eq_iff_of_nodup hnodup).mpr hnil)).symm
    rw [if_neg hhead]
    refine hl.of_ring ?_ ?_ (by simp) ?_ (uuids_of_insert hl.uuids huuid hsub ?_) ?_
    · simp [fillWrites]
    · simp [fillWrites]
    · rw [head?_append_of_ne_nil _ hcons, head?_append_of_ne_nil _ hcons]
    · intro a
      simp [fillWrites]
    · simpa [fillWrites] using hrotate

/-- `list_insert_after` writes what an insertion before the next element writes. -/
theorem ListAt.insert_after {uuid : UInt64} {s : Store} (hl : ListAt uuid s h l)
    (hnodup : l.Nodup) (hd : d ∈ l) (hd0 : d ≠ 0) (ho : o ∉ l) (huuid : HasUuid uuid s o) :
    ListAt uuid (assign (insertWrites uuid s h d false o ++
      fillWrites o (insertOffs s d false o)) s) h (insertAfter d o l) := by
  obtain ⟨l₁, l₂, rfl, hnot⟩ := eq_append_cons_of_mem hd
  rw [insertAfter_append o l₂ hnot]
  have hring : IsRing (nextOf s) (prevOf s) (d :: (l₂ ++ l₁)) :=
    isRing_append_comm.mp hl.ring
  -- the ring opened behind `d`
  have hopen : IsRing (nextOf s) (prevOf s) ((l₂ ++ l₁) ++ [d]) :=
    isRing_append_comm.mp hring
  have hnodup' : ((l₂ ++ l₁) ++ [d]).Nodup :=
    nodup_append_comm.mp (nodup_append_comm.mp hnodup : (d :: (l₂ ++ l₁)).Nodup)
  have ho' : o ∉ (l₂ ++ l₁) ++ [d] := by
    simp only [mem_append, mem_cons, not_mem_nil, or_false, not_or] at ho ⊢
    exact ⟨⟨ho.2.2, ho.1⟩, ho.2.1⟩
  obtain ⟨c, t, hct⟩ : ∃ c t, (l₂ ++ l₁) ++ [d] = c :: t :=
    exists_cons_of_ne_nil (by simp)
  have hprev : prevOf s c = d := by
    rw [hct] at hopen
    rw [hopen.prev_front]
    simp [← hct]
  have hnext : nextOf s d = c := by
    have hlast : d ∈ ((l₂ ++ l₁) ++ [d]).getLast? := by simp
    have hfront : c ∈ ((l₂ ++ l₁) ++ [d]).head? := by rw [hct]; rfl
    exact (hopen.2 d hlast c hfront).1
  have hrotate : IsRing (update (update (nextOf s) d o) o c) (update (update (prevOf s) c o) o d)
      (l₁ ++ d :: o :: l₂) := by
    rw [hct] at hopen hnodup' ho'
    have hlinked := hopen.linkBefore hnodup' ho'
    rw [hprev, ← hct] at hlinked
    have happ : l₁ ++ d :: o :: l₂ = (l₁ ++ [d]) ++ (o :: l₂) := by simp
    rw [happ, isRing_append_comm]
    simpa using hlinked
  have hsub : ∀ a ∈ l₁ ++ d :: o :: l₂, a = o ∨ a ∈ l₁ ++ d :: l₂ := by
    intro a ha
    simp only [mem_append, mem_cons] at ha ⊢
    tauto
  rw [assign_append, insertWrites, if_neg hd0, if_neg (by simp), insertOffs, if_neg hd0,
    if_neg (by simp), hnext]
  refine hl.of_ring ?_ ?_ (by simp) ?_ (uuids_of_insert hl.uuids huuid hsub ?_) ?_
  · simp [fillWrites]
  · simp [fillWrites]
  · cases l₁ <;> simp
  · intro a
    simp [fillWrites]
  · simpa [fillWrites] using hrotate

/-- `d` is where an insertion into `l` takes place once `list_get_dest` has resolved it: an
element of the list, or null when there is none. -/
def Place (d : UInt64) (l : List UInt64) : Prop :=
  (d = 0 ∧ l = []) ∨ (d ≠ 0 ∧ d ∈ l)

def insertAt (d : UInt64) (before : Bool) (o : UInt64) (l : List UInt64) : List UInt64 :=
  if d = 0 then [o] else insertNextTo d before o l

theorem ListAt.insert {uuid : UInt64} {s : Store} (hl : ListAt uuid s h l)
    (hnodup : l.Nodup) (hd : Place d l) (ho : o ∉ l) (huuid : HasUuid uuid s o) (before : Bool) :
    ListAt uuid (assign (insertWrites uuid s h d before o ++
      fillWrites o (insertOffs s d before o)) s) h (insertAt d before o l) := by
  rcases hd with ⟨rfl, rfl⟩ | ⟨hd0, hd⟩
  · exact hl.insert_first huuid before
  · rw [insertAt, if_neg hd0, insertNextTo]
    cases before with
    | true => exact hl.insert_before hnodup hd hd0 ho huuid
    | false => exact hl.insert_after hnodup hd hd0 ho huuid

/-! ## Which words are assigned -/

theorem updateHeadWrites_of {uuid : UInt64} {s : Store} {v : UInt64} (l : List UInt64) :
    ∀ w ∈ updateHeadWrites uuid s h v, Word.Of h l w.1 := by
  intro w hw
  unfold updateHeadWrites at hw
  split at hw
  · simp only [mem_cons, not_mem_nil, or_false] at hw
    rcases hw with rfl | rfl <;> rfl
  · simp only [mem_cons, not_mem_nil, or_false] at hw
    rw [hw]
    rfl

theorem removeWrites_of {uuid : UInt64} {s : Store} (hl : ListAt uuid s h l) (ho : o ∈ l) :
    ∀ w ∈ removeWrites uuid s h o, Word.Of h l w.1 := by
  obtain ⟨⟨hnext, -⟩, hprev, -⟩ := hl.ring.neighbours ho
  intro w hw
  unfold removeWrites at hw
  split at hw
  · exact updateHeadWrites_of l w hw
  · simp only [mem_append, mem_cons, not_mem_nil, or_false] at hw
    rcases hw with (rfl | rfl) | hw
    · exact hnext
    · exact hprev
    · split at hw
      · exact updateHeadWrites_of l w hw
      · cases hw

theorem insertWrites_of {uuid : UInt64} {s : Store} (hl : ListAt uuid s h l)
    (hd : Place d l) (before : Bool) : ∀ w ∈ insertWrites uuid s h d before o, Word.Of h l w.1 := by
  intro w hw
  unfold insertWrites at hw
  rcases hd with ⟨rfl, rfl⟩ | ⟨hd0, hd⟩
  · rw [if_pos rfl] at hw
    exact updateHeadWrites_of [] w hw
  · obtain ⟨⟨hnext, -⟩, hprev, -⟩ := hl.ring.neighbours hd
    rw [if_neg hd0] at hw
    split at hw
    · simp only [mem_append, mem_cons, not_mem_nil, or_false] at hw
      rcases hw with (rfl | rfl) | hw
      · exact hd
      · exact hprev
      · split at hw
        · exact updateHeadWrites_of l w hw
        · cases hw
    · simp only [mem_cons, not_mem_nil, or_false] at hw
      rcases hw with rfl | rfl
      · exact hd
      · exact hnext

theorem fillWrites_of {offs : UInt64 × UInt64} (h : UInt64)
    (ho : o ∈ l) : ∀ w ∈ fillWrites o offs, Word.Of h l w.1 := by
  intro w hw
  simp only [fillWrites, mem_cons, not_mem_nil, or_false] at hw
  rcases hw with rfl | rfl <;> exact ho

/-! ## Moving -/

/-- What an insertion at the place `d` reads is the same in both stores. -/
structure SameReads (s s₁ : Store) (h d : UInt64) (before : Bool) : Prop where
  uuid : s₁ (.firstUuid h) = s (.firstUuid h)
  prev : d ≠ 0 → before = true → prevOf s₁ d = prevOf s d
  next : d ≠ 0 → before = false → nextOf s₁ d = nextOf s d
  first : d ≠ 0 → before = true → (d = s₁ (.firstOff h) ↔ d = s (.firstOff h))

theorem SameReads.insert_eq {s s₁ : Store} {before : Bool}
    (hr : SameReads s s₁ h d before) (uuid o : UInt64) :
    insertWrites uuid s₁ h d before o = insertWrites uuid s h d before o ∧
      insertOffs s₁ d before o = insertOffs s d before o := by
  unfold insertWrites insertOffs updateHeadWrites
  by_cases hd : d = 0
  · simp only [hd, if_true, hr.uuid, and_self]
  · cases before with
    | true => simp only [hd, if_false, if_true, hr.uuid, hr.prev hd rfl, hr.first hd rfl, and_self]
    | false =>
      simp only [hd, if_false, Bool.false_eq_true, hr.next hd rfl, and_self]

theorem removeWrites_uuid {uuid : UInt64} {s : Store} (a : UInt64) :
    assign (removeWrites uuid s h o) s (.nextUuid a) = s (.nextUuid a) ∧
      assign (removeWrites uuid s h o) s (.prevUuid a) = s (.prevUuid a) := by
  unfold removeWrites
  split
  · simp [assign_updateHeadWrites]
  · rw [assign_append]
    split <;> simp [assign_updateHeadWrites]

/-- Within one list a removal changes nothing that the insertion reads, unless the object is
next to the place on the side where it goes. -/
theorem sameReads_of_not_adjacent {uuid : UInt64} {s : Store} {before : Bool}
    (hl : ListAt uuid s h l) (hnodup : l.Nodup) (ho : o ∈ l) (hd : d ∈ l) (hdo : d ≠ o)
    (hbefore : before = true → prevOf s d ≠ o) (hafter : before = false → nextOf s d ≠ o) :
    SameReads s (assign (removeWrites uuid s h o) s) h d before := by
  obtain ⟨⟨hnextMem, hprevNext⟩, hprevMem, hnextPrev⟩ := hl.ring.neighbours ho
  have hne : l ≠ [] := ne_nil_of_mem ho
  have huuid : s (.firstUuid h) = uuid := hl.firstUuid.resolve_right fun h => hne h.1
  have hnext : nextOf s o ≠ o := by
    -- a ring with two different nodes has no loop
    obtain ⟨l₁, l₂, rfl, hnot⟩ := eq_append_cons_of_mem ho
    have hring : IsRing (nextOf s) (prevOf s) (o :: (l₂ ++ l₁)) :=
      isRing_append_comm.mp hl.ring
    have hnodup' : (o :: (l₂ ++ l₁)).Nodup := nodup_append_comm.mp hnodup
    cases hrest : l₂ ++ l₁ with
    | nil =>
      obtain ⟨rfl, rfl⟩ := append_eq_nil_iff.mp hrest
      exact absurd (by simpa using hd) hdo
    | cons b t =>
      rw [hrest] at hring hnodup'
      rw [hring.next_front]
      exact fun hbo => (nodup_cons.mp hnodup').1 (hbo ▸ mem_cons_self)
  have hside : before = true → d ≠ nextOf s o := fun hb hdn =>
    hbefore hb (hdn ▸ hprevNext)
  rw [removeWrites, if_neg hnext, assign_append]
  refine ⟨?_, fun _ hb => ?_, fun _ hb => ?_, fun _ hb => ?_⟩
  · split <;> simp [assign_updateHeadWrites, huuid]
  · have hdn := hside hb
    split <;> simp [hdn]
  · have hdp : d ≠ prevOf s o := fun hdp => hafter hb (hdp ▸ hnextPrev)
    split <;> simp [hdp]
  · have hdn := hside hb
    split
    · rename_i hfirst
      simp [assign_updateHeadWrites, hfirst, hdn, hdo]
    · simp

end Pmdk.PList
