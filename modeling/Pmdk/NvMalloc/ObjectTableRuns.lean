import Pmdk.NvMalloc.ObjectTable

/-!
# Names and slots

As long as ids are told apart by what an entry holds of them, and `slot_buffer` has not been filled
once, every id has the entry of its last insert, every slot has one entry at most, and slots run out
only when all of them are in use.
-/

namespace Pmdk.NvMalloc

open Function List

def Short (id : Id) : Prop := id.length ≤ maxIdLength

theorem short_take (id : Id) : Short (id.take maxIdLength) := length_take_le _ _

structure Told (K : Id → Prop) : Prop where
  bucket : ∀ id, K id → otBucket id = otBucket (id.take maxIdLength)
  injective : ∀ a b, K a → K b → a.take maxIdLength = b.take maxIdLength → a = b

theorem told_short : Told Short where
  bucket := fun id h => congrArg otBucket (take_of_length_le h).symm
  injective := fun a b ha hb h => by
    rwa [take_of_length_le ha, take_of_length_le hb] at h

theorem equalFn_iff (a b : Id) (ha : Short a) (hb : Short b) : equalFn a b = true ↔ a = b := by
  rw [equalFn, beq_iff_eq, take_of_length_le ha, take_of_length_le hb]

theorem equalFn_take (id key : Id) : equalFn id key = equalFn (id.take maxIdLength) key := by
  rw [equalFn, equalFn, take_take, Nat.min_self]

theorem otBucket_lt (id : Id) : otBucket id < (chainhashMask 100).toNat + 1 := by
  rw [otBucket, UInt64.toNat_and]
  exact Nat.lt_succ_of_le Nat.and_le_right

/-! ## The compare-and-swap -/

theorem casLoop_eq (fuel : Nat) (new : Int) {place old : Int} (h : place = old) :
    casLoop (fuel + 1) place old new = some new := by
  rw [casLoop, if_pos h]

theorem casLoop_ne (fuel : Nat) (new : Int) {place old : Int} (h : place ≠ old) :
    casLoop fuel place old new = none := by
  induction fuel with
  | zero => rfl
  | succ fuel ih => rw [casLoop, if_neg h, ih]

/-! ## Slots -/

def ObjectTable.freed (t : ObjectTable) : List Nat :=
  (t.slotBuffer.take t.slotBufferNextIdx).drop t.slotBufferHeadIdx

/-- The state of the slots, when `owned` are those of the ids. -/
structure SlotInv (more : Nat) (owned : Id → Option Nat) (t : ObjectTable) : Prop where
  total : t.totalSlotsAvailable = 63 * (more + 1)
  buffer : t.slotBuffer.length = slotBufferSize
  next : t.slotBufferNextIdx ≤ slotBufferSize
  head : t.slotBufferHeadIdx ≤ t.slotBufferNextIdx
  tail : t.slotBufferTailIdx = t.slotBufferNextIdx - 1
  nFree : t.slotBufferNFree = t.slotBufferNextIdx - t.slotBufferHeadIdx
  nvm : t.nextNvmSlot ≤ t.totalSlotsAvailable
  shared : Owners.Shared t.nextNvmSlot t.freed owned

section Slots

variable {more : Nat} {owned : Id → Option Nat} {t : ObjectTable} {id : Id} {slot : Nat}

theorem slotInv_init (more : Nat) : SlotInv more (fun _ => none) (otInit more) where
  total := rfl
  buffer := length_replicate
  next := Nat.zero_le _
  head := Nat.le_refl 0
  tail := rfl
  nFree := rfl
  nvm := Nat.zero_le _
  shared := Owners.shared_zero

theorem SlotInv.freed_cases (h : SlotInv more owned t) :
    (t.slotBufferNFree ≤ 0 ∧ t.freed = []) ∨
      (0 < t.slotBufferNFree ∧ t.slotBufferHeadIdx < t.slotBufferNextIdx ∧
        ∃ slot, t.slotBuffer[t.slotBufferHeadIdx]? = some slot ∧ t.freed =
          slot :: (t.slotBuffer.take t.slotBufferNextIdx).drop (t.slotBufferHeadIdx + 1)) := by
  have hlen : (t.slotBuffer.take t.slotBufferNextIdx).length = t.slotBufferNextIdx := by
    rw [length_take, h.buffer, Nat.min_eq_left h.next]
  have hnFree := h.nFree
  have hhead := h.head
  rcases Nat.lt_or_ge t.slotBufferHeadIdx t.slotBufferNextIdx with hlt | hge
  · have hlt' : t.slotBufferHeadIdx < (t.slotBuffer.take t.slotBufferNextIdx).length := by
      rw [hlen]
      exact hlt
    refine Or.inr ⟨by omega, hlt, _, ?_, drop_eq_getElem_cons hlt'⟩
    rw [getElem_take]
    exact getElem?_eq_getElem _
  · refine Or.inl ⟨by omega, ?_⟩
    rw [ObjectTable.freed, drop_eq_nil_iff, hlen]
    exact hge

theorem SlotInv.findSlot (h : SlotInv more owned t) (hnew : owned id = none) :
    (otFindSlot t = some (none, t) ∧ ∀ slot < 63 * (more + 1), ∃ i, owned i = some slot) ∨
      ∃ slot t', otFindSlot t = some (some slot, t') ∧ t'.otHashmap = t.otHashmap ∧
        t'.slotBufferNextIdx = t.slotBufferNextIdx ∧
        SlotInv more (update owned id (some slot)) t' := by
  have hshared := h.shared
  rcases h.freed_cases with ⟨hnFree, hfreed⟩ | ⟨hnFree, hlt, slot, hget, hfreed⟩
  · rw [otFindSlot, if_pos hnFree]
    by_cases hfull : t.totalSlotsAvailable ≤ t.nextNvmSlot
    · refine Or.inl ⟨if_pos hfull, fun slot hslot => ?_⟩
      have hslot' : slot < t.nextNvmSlot := by
        have := h.total
        omega
      rw [hfreed] at hshared
      exact (hshared.covers slot hslot').resolve_left not_mem_nil
    · refine Or.inr ⟨_, _, if_neg hfull, rfl, rfl, ?_⟩
      exact ⟨h.total, h.buffer, h.next, h.head, h.tail, h.nFree, Nat.lt_of_not_le hfull,
        hshared.fresh hnew⟩
  · rw [otFindSlot, if_neg (Int.not_le.mpr hnFree), hget]
    refine Or.inr ⟨slot, _, rfl, rfl, rfl, h.total, h.buffer, h.next, hlt, h.tail, ?_, h.nvm, ?_⟩
    · have := h.nFree
      dsimp only
      omega
    · rw [hfreed] at hshared
      exact hshared.reuse hnew

theorem SlotInv.release (h : SlotInv more owned t) (hold : owned id = some slot)
    (hnext : t.slotBufferNextIdx < slotBufferSize)
    (hashmap : ChainHash.Chains Id ObjectTableEntry) :
    SlotInv more (update owned id none) { t with
      otHashmap := hashmap
      slotBuffer := t.slotBuffer.set t.slotBufferNextIdx slot
      slotBufferNextIdx := t.slotBufferNextIdx + 1
      slotBufferTailIdx := t.slotBufferNextIdx
      slotBufferNFree := t.slotBufferNFree + 1 } where
  total := h.total
  buffer := length_set.trans h.buffer
  next := hnext
  head := Nat.le_succ_of_le h.head
  tail := by
    dsimp only
    omega
  nFree := by
    have := h.nFree
    dsimp only
    omega
  nvm := h.nvm
  shared := by
    have hlt : t.slotBufferNextIdx < t.slotBuffer.length := h.buffer ▸ hnext
    have hlen : t.slotBufferHeadIdx ≤ (t.slotBuffer.take t.slotBufferNextIdx).length := by
      rw [length_take, Nat.min_eq_left (Nat.le_of_lt hlt)]
      exact h.head
    have htake : (t.slotBuffer.set t.slotBufferNextIdx slot).take (t.slotBufferNextIdx + 1) =
        t.slotBuffer.take t.slotBufferNextIdx ++ [slot] := by
      rw [take_add_one, take_set_of_le (Nat.le_refl _), getElem?_set_self hlt]
      rfl
    rw [ObjectTable.freed, htake, drop_append_of_le_length hlen]
    exact h.shared.release hold

end Slots

/-! ## Calls -/

def otSlot (log : List OtEvent) (id : Id) : Option Nat := (lastEntry log id).map (·.slot)

theorem otSlot_insert (log : List OtEvent) (id : Id) (dataPtr slot : Nat) :
    otSlot (.insert id dataPtr slot :: log) = update (otSlot log) id (some slot) := by
  funext i
  rw [otSlot, lastEntry, update_apply]
  split <;> rfl

theorem otSlot_remove (log : List OtEvent) (id : Id) :
    otSlot (.remove id :: log) = update (otSlot log) id none := by
  funext i
  rw [otSlot, lastEntry, update_apply]
  split <;> rfl

structure OtInv (K : Id → Prop) (more : Nat) (log : List OtEvent) (t : ObjectTable) : Prop where
  chains : t.otHashmap.length = (chainhashMask 100).toNat + 1
  sound : ChainHash.Sound Short t.otHashmap
  get : ∀ id, K id → otGet t id = lastEntry log id
  known : ∀ id, lastEntry log id ≠ none → K id
  slots : SlotInv more (otSlot log) t

variable {e : ObjectTableEntry}

section Calls

variable {K : Id → Prop} {more : Nat} {log : List OtEvent} {t t' : ObjectTable} {id : Id}
  {dataPtr : Nat}

theorem otGet_otInit (more : Nat) (id : Id) : otGet (otInit more) id = none := by
  have hchain : (otInit more).otHashmap.getD (otBucket id) [] = [] := by
    rw [getD_eq_getElem?_getD, otInit, getElem?_replicate]
    split <;> rfl
  rw [otGet, ChainHash.get, hchain]
  rfl

theorem otInv_init (K : Id → Prop) (more : Nat) : OtInv K more [] (otInit more) where
  chains := length_replicate
  sound := by
    refine ⟨fun chain hchain e he => ?_, fun chain hchain => ?_⟩
    · rw [(mem_replicate.mp hchain).2] at he
      exact (not_mem_nil he).elim
    · rw [(mem_replicate.mp hchain).2]
      exact nodup_nil
  get := fun id _ => otGet_otInit more id
  known := fun _ h => (h rfl).elim
  slots := slotInv_init more

theorem Told.otGet_take (hK : Told K) (hid : K id) (t : ObjectTable) :
    otGet t id = otGet t (id.take maxIdLength) :=
  ChainHash.get_congr (hK.bucket id hid) (equalFn_take id)

theorem Told.take_eq_iff (hK : Told K) {i : Id} (hi : K i) (hid : K id) :
    i.take maxIdLength = id.take maxIdLength ↔ i = id :=
  ⟨hK.injective i id hi hid, fun heq => heq ▸ rfl⟩

section

variable (h : OtInv K more log t)

include h

theorem OtInv.bucket_lt (id : Id) : otBucket id < t.otHashmap.length := by
  rw [h.chains]
  exact otBucket_lt id

theorem OtInv.insert (hK : Told K) (hid : K id)
    (hlast : lastEntry log id = none) (hmap : t'.otHashmap = t.otHashmap) {slot : Nat}
    (hslots : SlotInv more (update (otSlot log) id (some slot)) t') :
    OtInv K more (.insert id dataPtr slot :: log) { t' with
      otHashmap := ChainHash.set otBucket t'.otHashmap (id.take maxIdLength)
        ⟨id.take maxIdLength, slot, dataPtr, (slot / 63, slot % 63)⟩ } where
  chains := by
    rw [hmap, ChainHash.set, length_modify]
    exact h.chains
  sound := by
    have hget := (hK.otGet_take hid t).symm.trans ((h.get id hid).trans hlast)
    rw [hmap]
    exact h.sound.set equalFn_iff (short_take id) hget
  get := fun i hi => by
    have hget := (hK.otGet_take hi t).symm.trans (h.get i hi)
    rw [hK.otGet_take hi, otGet, hmap, ChainHash.get_set equalFn_iff (short_take id) (short_take i)
      (h.bucket_lt _), lastEntry]
    by_cases heq : i = id
    · rw [if_pos heq, if_pos (congrArg _ heq)]
    · rw [if_neg heq, if_neg fun htake => heq ((hK.take_eq_iff hi hid).mp htake)]
      exact hget
  known := fun i hi => by
    rw [lastEntry] at hi
    split at hi
    · rename_i heq
      exact heq ▸ hid
    · exact h.known i hi
  slots := by
    rw [otSlot_insert]
    exact ⟨hslots.total, hslots.buffer, hslots.next, hslots.head, hslots.tail, hslots.nFree,
      hslots.nvm, hslots.shared⟩

/-- `ot_insert` stays in `slot_buffer`, and fails only if no slot is free. -/
theorem OtInv.otInsert_cases (hK : Told K) (hid : K id) (dataPtr : Nat) :
    (lastEntry log id ≠ none ∧ otInsert t id dataPtr = some (.duplicate, t)) ∨
      (lastEntry log id = none ∧ otInsert t id dataPtr = some (.fail, t) ∧
        ∀ slot < 63 * (more + 1), ∃ i, otSlot log i = some slot) ∨
      (lastEntry log id = none ∧ ∃ slot t', otInsert t id dataPtr = some
        (.ok ⟨id.take maxIdLength, slot, dataPtr, (slot / 63, slot % 63)⟩, t') ∧
        t'.slotBufferNextIdx = t.slotBufferNextIdx ∧
        OtInv K more (.insert id dataPtr slot :: log) t') := by
  rw [otInsert, h.get id hid]
  cases hlast : lastEntry log id with
  | some e => exact Or.inl ⟨Option.some_ne_none e, rfl⟩
  | none =>
    have hnew : otSlot log id = none := by
      rw [otSlot, hlast]
      rfl
    rcases h.slots.findSlot hnew with ⟨hfind, hfull⟩ | ⟨slot, t', hfind, hmap, hnext, hslots⟩
    · refine Or.inr (Or.inl ⟨rfl, ?_, hfull⟩)
      rw [hfind]
      rfl
    · have hinv : OtInv K more (.insert id dataPtr slot :: log) _ :=
        h.insert hK hid hlast hmap hslots
      refine Or.inr (Or.inr ⟨rfl, slot, _, ?_, ?_, hinv⟩)
      · rw [hfind]
        rfl
      · exact hnext

theorem OtInv.otRemove_none (hid : K id) (hlast : lastEntry log id = none)
    (fuel : Nat) : otRemove fuel t id = some (false, t) := by
  rw [otRemove, h.get id hid, hlast]

/-- The removals that fill `slot_buffer` come to an end. -/
theorem OtInv.otRemove_some (hK : Told K) (hid : K id) (hlast : lastEntry log id = some e)
    (hnext : t.slotBufferNextIdx < slotBufferSize) (fuel : Nat) :
    ∃ t', otRemove (fuel + 1) t id = some (true, t') ∧ OtInv K more (.remove id :: log) t' ∧
      t'.slotBufferNextIdx = t.slotBufferNextIdx + 1 := by
  have hmod := Nat.mod_eq_of_lt hnext
  have hlen : ¬t.slotBuffer.length ≤ t.slotBufferNextIdx := by
    rw [h.slots.buffer]
    exact Nat.not_le.mpr hnext
  have hdel : ChainHash.del otBucket equalFn t.otHashmap id =
      ChainHash.del otBucket equalFn t.otHashmap (id.take maxIdLength) :=
    ChainHash.del_congr (hK.bucket id hid) (equalFn_take id)
  rw [otRemove, h.get id hid, hlast]
  dsimp only
  rw [hmod, if_neg hlen, casLoop_eq fuel _ h.slots.tail, hdel]
  refine ⟨_, rfl, ⟨?_, h.sound.del, fun i hi => ?_, fun i hi => ?_, ?_⟩, rfl⟩
  · rw [ChainHash.del, length_modify]
    exact h.chains
  · have hget := (hK.otGet_take hi t).symm.trans (h.get i hi)
    rw [hK.otGet_take hi, otGet, ChainHash.get_del equalFn_iff h.sound (short_take id)
      (short_take i) (h.bucket_lt _), lastEntry]
    by_cases heq : i = id
    · rw [if_pos heq, if_pos (congrArg _ heq)]
    · rw [if_neg heq, if_neg fun htake => heq ((hK.take_eq_iff hi hid).mp htake)]
      exact hget
  · rw [lastEntry] at hi
    split at hi
    · exact (hi rfl).elim
    · exact h.known i hi
  · rw [otSlot_remove]
    exact h.slots.release (by rw [otSlot, hlast]; rfl) hnext _

theorem OtInv.otRemove_full (hid : K id)
    (hlast : lastEntry log id = some e) (hnext : ¬t.slotBufferNextIdx < slotBufferSize)
    (fuel : Nat) : otRemove fuel t id = none := by
  have heq : t.slotBufferNextIdx = slotBufferSize :=
    Nat.le_antisymm h.slots.next (Nat.le_of_not_lt hnext)
  have htail : t.slotBufferTailIdx ≠ ((0 : Nat) : Int) - 1 := by
    rw [h.slots.tail, heq]
    decide
  have hlen : ¬t.slotBuffer.length ≤ 0 := by
    rw [h.slots.buffer]
    decide
  rw [otRemove, h.get id hid, hlast]
  dsimp only
  rw [heq, Nat.mod_self, if_neg hlen, casLoop_ne fuel _ htail]

end

end Calls

/-! ## Runs -/

/-- The ids are those of `K`, and nothing that has an entry is removed once `slot_buffer` has been
filled. -/
def OtMeets (K : Id → Prop) (t : ObjectTable) : OtCall → Prop
  | .insert id _ => K id
  | .remove id => K id ∧ (otGet t id ≠ none → t.slotBufferNextIdx < slotBufferSize)

structure Assigns (K : Id → Prop) (more : Nat) (log : List OtEvent) (t : ObjectTable) : Prop where
  get : ∀ id, K id → otGet t id = lastEntry log id
  below : ∀ id e, lastEntry log id = some e → e.slot < 63 * (more + 1)
  distinct : ∀ id id' e e', lastEntry log id = some e → lastEntry log id' = some e' →
    e.slot = e'.slot → id = id'
  insert : ∀ id dataPtr, K id → ∃ r t', otInsert t id dataPtr = some (r, t') ∧
    (r = .fail → ∀ slot < 63 * (more + 1), ∃ i e, lastEntry log i = some e ∧ e.slot = slot)
  remove : ∀ id, K id → ((∃ fuel r, otRemove fuel t id = some r) ↔ OtMeets K t (.remove id))

section Runs

variable {K : Id → Prop} {more : Nat} {log : List OtEvent} {t t' : ObjectTable} {id : Id}

theorem otRemove_zero (h : otGet t id ≠ none) : otRemove 0 t id = none := by
  rw [otRemove]
  cases hget : otGet t id with
  | none => exact (h hget).elim
  | some e => exact ite_self none

theorem OtInv.otRemove_eq (h : OtInv K more log t) (hK : Told K) (hmeets : OtMeets K t (.remove id))
    {fuel : Nat} {found : Bool} (hremove : otRemove fuel t id = some (found, t')) :
    OtInv K more (if found then .remove id :: log else log) t' := by
  obtain ⟨hid, hnext⟩ := hmeets
  rw [h.get id hid] at hnext
  cases hlast : lastEntry log id with
  | none =>
    rw [h.otRemove_none hid hlast, Option.some.injEq, Prod.mk.injEq] at hremove
    obtain ⟨rfl, rfl⟩ := hremove
    exact h
  | some e =>
    have hne : lastEntry log id ≠ none := hlast ▸ Option.some_ne_none e
    cases fuel with
    | zero =>
      rw [otRemove_zero (h.get id hid ▸ hne)] at hremove
      cases hremove
    | succ fuel =>
      obtain ⟨t₁, hremove₁, hinv, -⟩ := h.otRemove_some hK hid hlast (hnext hne) fuel
      rw [hremove₁, Option.some.injEq, Prod.mk.injEq] at hremove
      obtain ⟨rfl, rfl⟩ := hremove
      exact hinv

theorem OtRun.inv (hK : Told K) (h : OtRun more (OtMeets K) log t) : OtInv K more log t := by
  induction h with
  | init => exact otInv_init K more
  | @inserted log t t' id dataPtr entry _ hid hinsert ih =>
    rcases ih.otInsert_cases hK hid dataPtr with
      ⟨-, heq⟩ | ⟨-, heq, -⟩ | ⟨-, slot, t₁, heq, -, hinv⟩
    · rw [heq] at hinsert
      cases hinsert
    · rw [heq] at hinsert
      cases hinsert
    · rw [heq] at hinsert
      cases hinsert
      exact hinv
  | @notInserted log t t' id dataPtr r _ hid hinsert hr ih =>
    rcases ih.otInsert_cases hK hid dataPtr with ⟨-, heq⟩ | ⟨-, heq, -⟩ | ⟨-, slot, t₁, heq, -⟩
    · rw [heq] at hinsert
      cases hinsert
      exact ih
    · rw [heq] at hinsert
      cases hinsert
      exact ih
    · rw [heq] at hinsert
      cases hinsert
      exact (hr _ rfl).elim
  | removed _ hmeets hremove ih => exact ih.otRemove_eq hK hmeets hremove
  | notRemoved _ hmeets hremove ih => exact ih.otRemove_eq hK hmeets hremove

theorem otSlot_eq (h : lastEntry log id = some e) : otSlot log id = some e.slot := by
  rw [otSlot, h]
  rfl

theorem OtInv.remove_iff (h : OtInv K more log t) (hK : Told K) (hid : K id) :
    (∃ fuel r, otRemove fuel t id = some r) ↔ OtMeets K t (.remove id) := by
  have hget := h.get id hid
  constructor
  · rintro ⟨fuel, r, hremove⟩
    refine ⟨hid, fun hne => ?_⟩
    by_contra hnext
    obtain ⟨e, he⟩ := Option.ne_none_iff_exists'.mp hne
    rw [h.otRemove_full hid (hget.symm.trans he) hnext] at hremove
    cases hremove
  · rintro ⟨-, hnext⟩
    cases hlast : lastEntry log id with
    | none => exact ⟨0, _, h.otRemove_none hid hlast 0⟩
    | some e =>
      have hne : otGet t id ≠ none := by
        rw [hget, hlast]
        exact Option.some_ne_none e
      obtain ⟨t', hremove, -⟩ := h.otRemove_some hK hid hlast (hnext hne) 0
      exact ⟨1, _, hremove⟩

theorem OtRun.assigns (hK : Told K) (h : OtRun more (OtMeets K) log t) : Assigns K more log t := by
  have hinv := h.inv hK
  refine ⟨hinv.get, fun id e he => ?_, fun id id' e e' he he' hslot => ?_,
    fun id dataPtr hid => ?_, fun id hid => hinv.remove_iff hK hid⟩
  · have hlt := hinv.slots.shared.owned_lt id e.slot (otSlot_eq he)
    have hle := hinv.slots.nvm
    rw [hinv.slots.total] at hle
    exact Nat.lt_of_lt_of_le hlt hle
  · exact hinv.slots.shared.injective id id' e.slot (otSlot_eq he) (hslot ▸ otSlot_eq he')
  · rcases hinv.otInsert_cases hK hid dataPtr with
      ⟨-, heq⟩ | ⟨-, heq, hfull⟩ | ⟨-, slot, t', heq, -⟩
    · exact ⟨_, _, heq, fun hfail => by cases hfail⟩
    · refine ⟨_, _, heq, fun _ slot hslot => ?_⟩
      obtain ⟨i, hi⟩ := hfull slot hslot
      obtain ⟨e, he, rfl⟩ := Option.map_eq_some_iff.mp hi
      exact ⟨i, e, he, rfl⟩
    · exact ⟨_, _, heq, fun hfail => by cases hfail⟩

/-! ## Ids that are not told apart -/

theorem exists_first (K : Id → Prop) (hid : K id) : ∃ t, OtRun 0 (OtMeets K) [.insert id 0 0] t ∧
    t.otHashmap = ChainHash.set otBucket (otInit 0).otHashmap (id.take maxIdLength)
      ⟨id.take maxIdLength, 0, 0, (0, 0)⟩ := by
  have hinsert : otInsert (otInit 0) id 0 = some (.ok ⟨id.take maxIdLength, 0, 0, (0, 0)⟩,
      { otInit 0 with
        nextNvmSlot := 1
        otHashmap := ChainHash.set otBucket (otInit 0).otHashmap (id.take maxIdLength)
          ⟨id.take maxIdLength, 0, 0, (0, 0)⟩ }) := by
    rw [otInsert, otGet_otInit]
    rfl
  exact ⟨_, OtRun.inserted .init hid hinsert, rfl⟩

theorem get_set_of_ne {key : Id} (e : ObjectTableEntry) (h : otBucket id ≠ otBucket key) :
    ChainHash.get otBucket equalFn
      (ChainHash.set otBucket (otInit 0).otHashmap key e) id = none := by
  have hlt : otBucket key < (otInit 0).otHashmap.length := by
    rw [otInit, length_replicate]
    exact otBucket_lt key
  rw [ChainHash.get, ChainHash.set, ChainHash.getD_modify _ hlt, if_neg h.symm]
  exact otGet_otInit 0 id

theorem told_of_assigns
    (h : ∀ more log t, OtRun more (OtMeets K) log t → Assigns K more log t) : Told K := by
  have hbucket : ∀ id, K id → otBucket id = otBucket (id.take maxIdLength) := by
    intro id hid
    obtain ⟨t, hrun, hmap⟩ := exists_first K hid
    by_contra hne
    have hget := (h 0 _ t hrun).get id hid
    rw [otGet, hmap, get_set_of_ne _ hne, lastEntry, if_pos rfl] at hget
    cases hget
  refine ⟨hbucket, fun a b ha hb htake => ?_⟩
  obtain ⟨t, hrun, -⟩ := exists_first K ha
  by_contra hne
  have hassigns := h 0 _ t hrun
  have hsame : otGet t b = otGet t a := by
    refine ChainHash.get_congr ?_ fun key => ?_
    · rw [hbucket b hb, hbucket a ha, htake]
    · rw [equalFn_take b, equalFn_take a, htake]
  have hlastA : lastEntry [.insert a 0 0] a = some _ := if_pos rfl
  have hlastB : lastEntry [.insert a 0 0] b = none := if_neg (Ne.symm hne)
  rw [hassigns.get b hb, hassigns.get a ha, hlastA, hlastB] at hsame
  cases hsame

/-- In every run with certain ids an id has the entry of its last insert, no two ids have a slot in
common, inserts fail only when the slots are used up, and removals come to an end as long as
`slot_buffer` has not been filled, exactly if what an entry holds of these ids tells them apart. -/
theorem object_table_assigns_iff (K : Id → Prop) :
    (∀ more log t, OtRun more (OtMeets K) log t → Assigns K more log t) ↔ Told K :=
  ⟨told_of_assigns, fun hK _ _ _ h => h.assigns hK⟩

end Runs

/-! ## The 201st removal -/

theorem OtRun.mono {more : Nat} {Meets Meets' : ObjectTable → OtCall → Prop} {log : List OtEvent}
    {t : ObjectTable} (h : OtRun more Meets log t)
    (hmeets : ∀ t call, Meets t call → Meets' t call) : OtRun more Meets' log t := by
  induction h with
  | init => exact .init
  | inserted _ hmeet hcall ih => exact .inserted ih (hmeets _ _ hmeet) hcall
  | notInserted _ hmeet hcall hr ih => exact .notInserted ih (hmeets _ _ hmeet) hcall hr
  | removed _ hmeet hcall ih => exact .removed ih (hmeets _ _ hmeet) hcall
  | notRemoved _ hmeet hcall ih => exact .notRemoved ih (hmeets _ _ hmeet) hcall

section Again

variable {log : List OtEvent} {t : ObjectTable} {id : Id} (hid : Short id)

include hid

theorem exists_inserted (h : OtRun 0 (OtMeets Short) log t) (hempty : ∀ i, lastEntry log i = none) :
    ∃ slot t', OtRun 0 (OtMeets Short) (.insert id 0 slot :: log) t' ∧
      t'.slotBufferNextIdx = t.slotBufferNextIdx := by
  rcases (h.inv told_short).otInsert_cases told_short hid 0 with
    ⟨hlast, -⟩ | ⟨-, -, hfull⟩ | ⟨-, slot, t', heq, hnext, -⟩
  · exact (hlast (hempty id)).elim
  · obtain ⟨i, hi⟩ := hfull 0 (Nat.succ_pos 62)
    rw [otSlot, hempty i] at hi
    cases hi
  · exact ⟨slot, t', .inserted h hid heq, hnext⟩

theorem exists_removals (k : Nat) (hk : k ≤ slotBufferSize) :
    ∃ log t, OtRun 0 (OtMeets Short) log t ∧ (∀ i, lastEntry log i = none) ∧
      t.slotBufferNextIdx = k := by
  induction k with
  | zero => exact ⟨[], otInit 0, .init, fun _ => rfl, rfl⟩
  | succ k ih =>
    obtain ⟨log, t, hrun, hempty, rfl⟩ := ih (Nat.le_of_succ_le hk)
    obtain ⟨slot, t₁, hrun₁, hnext₁⟩ := exists_inserted hid hrun hempty
    have hlast : lastEntry (.insert id 0 slot :: log) id = some _ := if_pos rfl
    obtain ⟨t₂, hremove, -, hnext₂⟩ :=
      (hrun₁.inv told_short).otRemove_some told_short hid hlast (hnext₁ ▸ hk) 0
    refine ⟨_, t₂, .removed hrun₁ ⟨hid, fun _ => hnext₁ ▸ hk⟩ hremove, fun i => ?_,
      hnext₂.trans (congrArg (· + 1) hnext₁)⟩
    rw [lastEntry, lastEntry, hempty i]
    split <;> rfl

end Again

/-- When the id "a" has been removed 200 times, it cannot be removed again. -/
theorem not_removed_201 :
    ∃ log t, OtRun 0 (fun _ _ => True) log t ∧ otGet t [97] ≠ none ∧
      ∀ fuel, otRemove fuel t [97] = none := by
  have hid : Short [97] := Nat.succ_pos 53
  obtain ⟨log, t, hrun, hempty, hnext⟩ := exists_removals hid slotBufferSize (Nat.le_refl _)
  obtain ⟨slot, t', hrun', hnext'⟩ := exists_inserted hid hrun hempty
  have hlast : lastEntry (.insert [97] 0 slot :: log) [97] = some _ := if_pos rfl
  have hinv := hrun'.inv told_short
  refine ⟨_, t', hrun'.mono fun _ _ _ => trivial, ?_, fun fuel => ?_⟩
  · rw [hinv.get [97] hid, hlast]
    exact Option.some_ne_none _
  · refine hinv.otRemove_full hid hlast (fun hlt => ?_) fuel
    rw [hnext', hnext] at hlt
    exact Nat.lt_irrefl _ hlt

end Pmdk.NvMalloc
