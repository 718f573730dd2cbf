import Pmdk.Blk.BttReaders

/-!
# Releasing the read tracking table

`btt_read` publishes the map entry that it has read in the read tracking table, and reads it
again. If the map entry has changed meanwhile, the loop begins again with the new one, and an entry
with an error or a zero flag makes it return from there. The entry that was published stays in the
table then.

The steps are those of the other lanes as before, and in addition every read of the namespace may
fail.
-/

namespace Pmdk.Btt

open Function

variable {lbasize : Nat}

def Shared.fail (s : Shared lbasize) (b : Handle) (lane : Nat) : Option (Shared lbasize) :=
  match s.pc lane with
  | .readMap _ _ => some (s.setPc lane .idle)
  | .readLatest a _ _ => some ((s.setRtt a lane mapEntryError).setPc lane .idle)
  | .readData a _ _ _ _ => some ((s.setRtt a lane mapEntryError).setPc lane .idle)
  | .mapRead a premapLba _ =>
    some ((s.setLock a (getMapLockNum premapLba b.nfree) none).setPc lane .idle)
  | _ => none

inductive FaultEvent (lbasize : Nat)
  | step (e : StepEvent lbasize)
  | fail (lane : Nat)

def faultStep : FaultEvent lbasize → Shared lbasize → Option (Shared lbasize)
  | .step e, s => sharedStep e s
  | .fail lane, s => s.handle.bind fun b => s.fail b lane

def Flagged (entry : UInt32) : Prop :=
  mapEntryIsError entry = true ∨ mapEntryIsZeroOrInitial entry = true

instance (entry : UInt32) : Decidable (Flagged entry) := inferInstanceAs (Decidable (_ ∨ _))

def Pc.Reading (a : Nat) : Pc lbasize → Prop
  | .readMap a' _ => a' = a
  | .readLoop a' _ _ => a' = a
  | .readLatest a' _ _ => a' = a
  | .readData a' _ _ _ _ => a' = a
  | _ => False

def Pc.Returning : Pc lbasize → Prop
  | .idle => True
  | .readLoop _ _ entry => Flagged entry
  | _ => False

/-- When `btt_read` returns, the lane has no entry in the read tracking table. -/
def Releases (e : FaultEvent lbasize) (s : Shared lbasize) : Prop :=
  ∀ t, faultStep e s = some t → ∀ lane a, (s.pc lane).Reading a → (t.pc lane).Returning →
    t.rtt a lane = mapEntryError

def Pc.latest (s : Shared lbasize) : Pc lbasize → Option UInt32
  | .readLatest a premapLba _ => some ((s.ns.arena a).map premapLba)
  | _ => none

def FaultEvent.latest (s : Shared lbasize) : FaultEvent lbasize → Option UInt32
  | .step (.act lane) => (s.pc lane).latest s
  | _ => none

def Steady (e : FaultEvent lbasize) (s : Shared lbasize) : Prop :=
  ∀ entry ∈ e.latest s, ¬ Flagged entry

instance (e : FaultEvent lbasize) (s : Shared lbasize) : Decidable (Steady e s) :=
  @Option.decidableForallMem _ (fun entry => ¬ Flagged entry) _ (e.latest s)

/-! ## Moves -/

def Pc.InLoop : Pc lbasize → Prop
  | .readLoop _ _ _ => True
  | .readLatest _ _ _ => True
  | .readData _ _ _ _ _ => True
  | _ => False

def Pc.Publishes (a : Nat) : Pc lbasize → Prop
  | .readLoop a' _ entry => a' = a ∧ ¬ Flagged entry
  | .readLatest a' _ _ => a' = a
  | .readData a' _ _ _ _ => a' = a
  | _ => False

def Shared.row (s : Shared lbasize) (lane a : Nat) : UInt32 := s.rtt a lane

inductive Pc.Move : Pc lbasize → (Nat → UInt32) → Pc lbasize → (Nat → UInt32) → Prop
  | outside {pc pc' : Pc lbasize} (row : Nat → UInt32) (h : ¬ pc.InLoop)
      (hloop : pc'.InLoop → ∃ a i e, pc' = .readLoop a i e) : Move pc row pc' row
  | publish (a : Nat) (i : UInt32) {e : UInt32} (row : Nat → UInt32) (he : ¬ Flagged e) :
      Move (.readLoop a i e) row (.readLatest a i e) (update row a e)
  | again (a : Nat) (i e : UInt32) {e' : UInt32} (row : Nat → UInt32) (he : ¬ Flagged e') :
      Move (.readLatest a i e) row (.readLoop a i e') row
  | settle {pc : Pc lbasize} {a : Nat} (row : Nat → UInt32) (hpc : pc.Publishes a) (i e : UInt32)
      (buf : Block lbasize) (copied : Fin lbasize → Bool) :
      Move pc row (.readData a i e buf copied) row
  | flagged (a : Nat) (i : UInt32) {e : UInt32} (row : Nat → UInt32) (he : Flagged e) :
      Move (.readLoop a i e) row .idle row
  | release {pc : Pc lbasize} {a : Nat} (row : Nat → UInt32) (hpc : pc.Publishes a) :
      Move pc row .idle (update row a mapEntryError)

structure Shared.Moved (s t : Shared lbasize) (lane : Nat) : Prop where
  opened : t.handle ≠ none
  own : Pc.Move (s.pc lane) (s.row lane) (t.pc lane) (t.row lane)
  other : ∀ l, l ≠ lane → t.pc l = s.pc l ∧ t.row l = s.row l

variable {s t u : Shared lbasize} {lane : Nat} {pc : Pc lbasize}

theorem Shared.row_setRtt (s : Shared lbasize) (a lane : Nat) (e : UInt32) :
    (s.setRtt a lane e).row lane = update (s.row lane) a e := by
  funext a'
  dsimp only [Shared.row, Shared.setRtt]
  by_cases ha : a' = a
  · subst ha
    rw [update_self, update_self, update_self]
  · rw [update_of_ne ha, update_of_ne ha]
    rfl

theorem Shared.row_setRtt_of_ne (s : Shared lbasize) (a : Nat) {l lane : Nat} (hl : l ≠ lane)
    (e : UInt32) : (s.setRtt a lane e).row l = s.row l := by
  funext a'
  dsimp only [Shared.row, Shared.setRtt]
  by_cases ha : a' = a
  · subst ha
    rw [update_self, update_of_ne hl]
  · rw [update_of_ne ha]

theorem Shared.Moved.of_setPc (hopened : u.handle ≠ none) (hpc : u.pc = s.pc)
    (hmove : Pc.Move (s.pc lane) (s.row lane) pc (u.row lane))
    (hrow : ∀ l, l ≠ lane → u.row l = s.row l) : s.Moved (u.setPc lane pc) lane where
  opened := hopened
  own := by
    have hown : (u.setPc lane pc).pc lane = pc := update_self _ _ _
    rw [hown]
    exact hmove
  other l hl := by
    have hother : (u.setPc lane pc).pc l = u.pc l := update_of_ne hl _ _
    rw [hother, hpc]
    exact ⟨rfl, hrow l hl⟩

theorem Shared.Moved.of_rtt (hopened : u.handle ≠ none) (hpc : u.pc = s.pc) (hrtt : u.rtt = s.rtt)
    (hmove : Pc.Move (s.pc lane) (s.row lane) pc (s.row lane)) :
    s.Moved (u.setPc lane pc) lane := by
  have hrow : u.row = s.row := by
    funext l a
    unfold Shared.row
    rw [hrtt]
  refine .of_setPc hopened hpc ?_ fun l _ => by rw [hrow]
  rw [hrow]
  exact hmove

theorem Shared.Moved.of_setRtt (hopened : s.handle ≠ none) (a : Nat) (e : UInt32)
    (hmove : Pc.Move (s.pc lane) (s.row lane) pc (update (s.row lane) a e)) :
    s.Moved ((s.setRtt a lane e).setPc lane pc) lane := by
  refine .of_setPc (u := s.setRtt a lane e) hopened rfl ?_ fun l hl => s.row_setRtt_of_ne a hl e
  rw [s.row_setRtt]
  exact hmove

theorem Call.not_inLoop_begin (b : Handle) (lane : Nat) (c : Call lbasize) :
    ¬ (c.begin b lane).InLoop := by
  cases c with
  | read lba =>
    dsimp only [Call.begin]
    split <;> exact id
  | write lba buf =>
    dsimp only [Call.begin]
    split
    · exact id
    · split <;> exact id
  | setZero lba =>
    dsimp only [Call.begin]
    split
    · exact id
    · split <;> exact id
  | setError lba =>
    dsimp only [Call.begin]
    split
    · exact id
    · split <;> exact id

/-! ## Steps -/

theorem Pc.Move.of_outside {pc pc' : Pc lbasize} (row : Nat → UInt32) (h : ¬ pc.InLoop)
    (h' : ¬ pc'.InLoop) : Pc.Move pc row pc' row :=
  .outside row h fun hloop => absurd hloop h'

section

variable (hopened : s.handle ≠ none)

include hopened

theorem Shared.moved_act {b : Handle}
    (hsteady : Steady (.step (.act lane)) s) (h : s.act b lane = some t) : s.Moved t lane := by
  unfold Shared.act at h
  cases hpc : s.pc lane with
  | idle =>
    rw [hpc] at h
    cases h
  | readMap a i =>
    rw [hpc] at h
    cases h
    refine .of_rtt hopened rfl rfl ?_
    rw [hpc]
    exact .outside _ id fun _ => ⟨a, i, _, rfl⟩
  | readLoop a i e =>
    rw [hpc] at h
    dsimp only at h
    split at h
    · cases h
    · rename_i he
      cases h
      refine .of_setRtt hopened a e ?_
      rw [hpc]
      exact .publish a i _ he
  | readLatest a i e =>
    rw [hpc] at h
    have hlatest : (FaultEvent.step (.act lane)).latest s = some ((s.ns.arena a).map i) := by
      rw [FaultEvent.latest, hpc]
      rfl
    dsimp only at h
    split at h
    · cases h
      refine .of_rtt hopened rfl rfl ?_
      rw [hpc]
      exact .settle _ (show (Pc.readLatest a i e : Pc lbasize).Publishes a from rfl) _ _ _ _
    · cases h
      refine .of_rtt hopened rfl rfl ?_
      rw [hpc]
      exact .again a i e _ (hsteady _ hlatest)
  | readData a i e buf copied =>
    rw [hpc] at h
    cases h
  | scan a i f buf n =>
    rw [hpc] at h
    dsimp only at h
    split at h
    · split at h
      · cases h
        refine ⟨hopened, ?_, fun _ _ => ⟨rfl, rfl⟩⟩
        rw [hpc]
        exact .of_outside _ id id
      · cases h
        refine .of_rtt hopened rfl rfl ?_
        rw [hpc]
        exact .of_outside _ id id
    · cases h
      refine .of_rtt hopened rfl rfl ?_
      rw [hpc]
      exact .of_outside _ id id
  | writeData a i f buf copied =>
    rw [hpc] at h
    dsimp only at h
    split at h
    · cases h
      refine .of_rtt hopened rfl rfl ?_
      rw [hpc]
      exact .of_outside _ id id
    · cases h
  | mapLock a i job =>
    rw [hpc] at h
    dsimp only at h
    split at h
    · cases h
      refine .of_rtt (u := s.setLock _ _ _) hopened rfl rfl ?_
      rw [hpc]
      exact .of_outside _ id id
    · cases h
  | mapRead a i job =>
    rw [hpc] at h
    cases job with
    | write f =>
      cases h
      refine .of_rtt hopened rfl rfl ?_
      rw [hpc]
      exact .of_outside _ id id
    | setf f =>
      dsimp only at h
      split at h
      · cases h
        refine .of_rtt hopened rfl rfl ?_
        rw [hpc]
        exact .of_outside _ id id
      · cases h
        refine .of_rtt hopened rfl rfl ?_
        rw [hpc]
        exact .of_outside _ id id
  | flogHead a i f old =>
    rw [hpc] at h
    cases h
    refine .of_rtt (u := s.exec _) hopened rfl rfl ?_
    rw [hpc]
    exact .of_outside _ id id
  | flogTail a i f old =>
    rw [hpc] at h
    cases h
    refine .of_rtt (u := { s.exec _ with handle := some _ }) (Option.some_ne_none _) rfl rfl ?_
    rw [hpc]
    exact .of_outside _ id id
  | mapWrite a i job e =>
    rw [hpc] at h
    cases h
  | mapUnlock a i =>
    rw [hpc] at h
    cases h
    refine .of_rtt (u := s.setLock _ _ _) hopened rfl rfl ?_
    rw [hpc]
    exact .of_outside _ id id

theorem Shared.moved_byte {i : Fin lbasize} (h : s.byte lane i = some t) : s.Moved t lane := by
  unfold Shared.byte at h
  cases hpc : s.pc lane with
  | readData a j e buf copied =>
    rw [hpc] at h
    cases h
    refine .of_rtt hopened rfl rfl ?_
    rw [hpc]
    exact .settle _ (show (Pc.readData a j e buf copied).Publishes a from rfl) _ _ _ _
  | writeData a j f buf copied =>
    rw [hpc] at h
    cases h
    refine .of_rtt (u := { s with ns := _ }) hopened rfl rfl ?_
    rw [hpc]
    exact .of_outside _ id id
  | _ =>
    rw [hpc] at h
    cases h

theorem Shared.moved_commit (h : s.commit lane = some t) :
    s.Moved t lane := by
  unfold Shared.commit at h
  cases hpc : s.pc lane with
  | mapWrite a i job e =>
    rw [hpc] at h
    cases h
    refine .of_rtt (u := s.exec _) hopened rfl rfl ?_
    rw [hpc]
    exact .of_outside _ id id
  | _ =>
    rw [hpc] at h
    cases h

theorem Shared.moved_ret {c : Content lbasize} (h : s.ret lane c = some t) : s.Moved t lane := by
  unfold Shared.ret at h
  cases hpc : s.pc lane with
  | readLoop a i e =>
    rw [hpc] at h
    dsimp only at h
    split at h
    · rename_i hflag
      cases h
      refine .of_rtt hopened rfl rfl ?_
      rw [hpc]
      exact .flagged a i _ (hflag.imp (fun h => h.1) fun h => h.2.1)
    · cases h
  | readData a i e buf copied =>
    rw [hpc] at h
    dsimp only at h
    split at h
    · cases h
      refine .of_setRtt hopened a mapEntryError ?_
      rw [hpc]
      exact .release _ (show (Pc.readData a i e buf copied).Publishes a from rfl)
    · cases h
  | _ =>
    rw [hpc] at h
    cases h

theorem Shared.moved_fail {b : Handle} (h : s.fail b lane = some t) :
    s.Moved t lane := by
  unfold Shared.fail at h
  cases hpc : s.pc lane with
  | readMap a i =>
    rw [hpc] at h
    cases h
    refine .of_rtt hopened rfl rfl ?_
    rw [hpc]
    exact .of_outside _ id id
  | readLatest a i e =>
    rw [hpc] at h
    cases h
    refine .of_setRtt hopened a mapEntryError ?_
    rw [hpc]
    exact .release _ (show (Pc.readLatest a i e : Pc lbasize).Publishes a from rfl)
  | readData a i e buf copied =>
    rw [hpc] at h
    cases h
    refine .of_setRtt hopened a mapEntryError ?_
    rw [hpc]
    exact .release _ (show (Pc.readData a i e buf copied).Publishes a from rfl)
  | mapRead a i job =>
    rw [hpc] at h
    cases h
    refine .of_rtt (u := s.setLock _ _ _) hopened rfl rfl ?_
    rw [hpc]
    exact .of_outside _ id id
  | _ =>
    rw [hpc] at h
    cases h

end

def Shared.Vacant (s : Shared lbasize) : Prop :=
  ∀ lane, s.pc lane = .idle ∧ ∀ a, s.row lane a = mapEntryError

variable {e : FaultEvent lbasize}

theorem faultStep_moved (hsteady : Steady e s)
    (h : faultStep e s = some t) : t.Vacant ∨ s.handle ≠ none ∧ ∃ lane, s.Moved t lane := by
  cases hhandle : s.handle with
  | none =>
    cases e with
    | fail lane =>
      rw [faultStep, hhandle] at h
      cases h
    | step e =>
      change sharedStep e s = some t at h
      unfold sharedStep at h
      rw [hhandle] at h
      cases e with
      | reopen =>
        obtain ⟨r, -, hr⟩ := Option.bind_eq_some_iff.mp h
        cases hr
        exact .inl fun _ => ⟨rfl, fun _ => rfl⟩
      | cutReopen k =>
        obtain ⟨r, -, hr⟩ := Option.bind_eq_some_iff.mp h
        cases hr
        exact .inl fun _ => ⟨rfl, fun _ => rfl⟩
      | _ => cases h
  | some b =>
    have hopened : s.handle ≠ none := by
      rw [hhandle]
      exact Option.some_ne_none b
    cases e with
    | fail lane =>
      rw [faultStep, hhandle] at h
      exact .inr ⟨Option.some_ne_none b, lane, s.moved_fail hopened h⟩
    | step e =>
      change sharedStep e s = some t at h
      unfold sharedStep at h
      rw [hhandle] at h
      cases e with
      | call lane c =>
        cases hpc : s.pc lane with
        | idle =>
          dsimp only at h
          rw [hpc] at h
          dsimp only at h
          split at h
          · cases h
            refine .inr ⟨Option.some_ne_none b, lane, .of_rtt hopened rfl rfl ?_⟩
            rw [hpc]
            exact .of_outside _ id (Call.not_inLoop_begin b lane c)
          · cases h
        | _ =>
          dsimp only at h
          rw [hpc] at h
          cases h
      | act lane => exact .inr ⟨Option.some_ne_none b, lane, s.moved_act hopened hsteady h⟩
      | byte lane i => exact .inr ⟨Option.some_ne_none b, lane, s.moved_byte hopened h⟩
      | commit lane => exact .inr ⟨Option.some_ne_none b, lane, s.moved_commit hopened h⟩
      | ret lane c => exact .inr ⟨Option.some_ne_none b, lane, s.moved_ret hopened h⟩
      | crash =>
        cases h
        exact .inl fun _ => ⟨rfl, fun _ => rfl⟩
      | reopen => cases h
      | cutReopen k => cases h

/-! ## Main theorem -/

structure Pc.Kept (pc : Pc lbasize) (row : Nat → UInt32) : Prop where
  publishes : ∀ a, row a ≠ mapEntryError → pc.Publishes a
  latest : ∀ a i e, pc = .readLatest a i e → row a = e ∧ ¬ Flagged e

theorem Pc.Publishes.inLoop {a : Nat} (h : pc.Publishes a) : pc.InLoop := by
  cases pc with
  | readLoop => trivial
  | readLatest => trivial
  | readData => trivial
  | _ => exact absurd h id

theorem Pc.Publishes.unique {a a' : Nat} (h : pc.Publishes a) (h' : pc.Publishes a') : a' = a := by
  cases pc with
  | readLoop => exact h'.1.symm.trans h.1
  | readLatest => exact Eq.trans (Eq.symm h') h
  | readData => exact Eq.trans (Eq.symm h') h
  | _ => exact absurd h id

theorem Pc.Kept.row_eq {row : Nat → UInt32} (h : pc.Kept row) {a : Nat}
    (hpc : ¬ pc.Publishes a) : row a = mapEntryError := by
  by_contra hrow
  exact hpc (h.publishes a hrow)

theorem Pc.kept_idle {row : Nat → UInt32} (h : ∀ a, row a = mapEntryError) :
    (Pc.idle : Pc lbasize).Kept row := by
  refine ⟨fun a ha => absurd (h a) ha, fun _ _ _ heq => ?_⟩
  cases heq

theorem Pc.Kept.move {pc' : Pc lbasize} {row row' : Nat → UInt32} (h : pc.Kept row)
    (hmove : Pc.Move pc row pc' row') : pc'.Kept row' := by
  cases hmove with
  | outside row hout hloop =>
    have hrow : ∀ a, row a = mapEntryError := fun a => h.row_eq fun hpc => hout hpc.inLoop
    refine ⟨fun a ha => absurd (hrow a) ha, ?_⟩
    rintro a i e rfl
    obtain ⟨_, _, _, heq⟩ := hloop trivial
    cases heq
  | publish a i row he =>
    refine ⟨fun a' ha' => ?_, ?_⟩
    · by_contra hne
      rw [update_of_ne (Ne.symm hne)] at ha'
      exact hne (h.publishes a' ha').1
    · intro a' i' e' heq
      cases heq
      exact ⟨update_self _ _ _, he⟩
  | again a i e row he =>
    refine ⟨fun a' ha' => ⟨h.publishes a' ha', he⟩, fun _ _ _ heq => ?_⟩
    cases heq
  | settle row hpc i e buf copied =>
    refine ⟨fun a' ha' => ((h.publishes a' ha').unique hpc), fun _ _ _ heq => ?_⟩
    cases heq
  | flagged a i row he => exact kept_idle fun a' => h.row_eq fun hpc => hpc.2 he
  | @release _ a row hpc =>
    refine kept_idle fun a' => ?_
    by_cases ha : a' = a
    · rw [ha, update_self]
    · rw [update_of_ne ha]
      exact h.row_eq fun hpc' => ha (hpc.unique hpc')

structure Shared.Released (s : Shared lbasize) : Prop where
  closed : s.handle = none → ∀ lane, s.pc lane = .idle
  kept : ∀ lane, (s.pc lane).Kept (s.row lane)

theorem Shared.Vacant.released (h : s.Vacant) : s.Released where
  closed _ lane := (h lane).1
  kept lane := by
    rw [(h lane).1]
    exact Pc.kept_idle (h lane).2

theorem Shared.Released.faultStep (h : s.Released)
    (hsteady : Steady e s) (ht : faultStep e s = some t) : t.Released := by
  rcases faultStep_moved hsteady ht with hvacant | ⟨-, lane, hmoved⟩
  · exact hvacant.released
  · refine ⟨fun hnone => absurd hnone hmoved.opened, fun l => ?_⟩
    by_cases hl : l = lane
    · rw [hl]
      exact (h.kept lane).move hmoved.own
    · obtain ⟨hpc, hrow⟩ := hmoved.other l hl
      rw [hpc, hrow]
      exact h.kept l

/-- Where the read tracking tables are kept, a call that returns has no entry in them. -/
theorem Shared.Released.row_eq (h : s.Released) (hpc : (s.pc lane).Returning) (a : Nat) :
    s.rtt a lane = mapEntryError := by
  refine (h.kept lane).row_eq fun hpublishes => ?_
  cases hlane : s.pc lane with
  | readLoop a i e =>
    rw [hlane] at hpc hpublishes
    exact hpublishes.2 hpc
  | readLatest a i e =>
    rw [hlane] at hpc
    exact hpc
  | readData a i e buf copied =>
    rw [hlane] at hpc
    exact hpc
  | _ =>
    rw [hlane] at hpublishes
    exact hpublishes

theorem FaultEvent.latest_eq_some {entry : UInt32}
    (h : e.latest s = some entry) : ∃ lane a i e', e = .step (.act lane) ∧
      s.pc lane = .readLatest a i e' ∧ entry = (s.ns.arena a).map i := by
  unfold FaultEvent.latest at h
  split at h
  · rename_i lane
    cases hpc : s.pc lane with
    | readLatest a i e' =>
      rw [hpc] at h
      cases h
      exact ⟨lane, a, i, e', rfl, hpc, rfl⟩
    | _ =>
      rw [hpc] at h
      cases h
  · cases h

theorem Shared.Released.act_readLatest (h : s.Released) {a : Nat} {i e : UInt32}
    (hpc : s.pc lane = .readLatest a i e) (hflag : Flagged ((s.ns.arena a).map i)) :
    Btt.faultStep (.step (.act lane)) s =
      some (s.setPc lane (.readLoop a i ((s.ns.arena a).map i))) := by
  have hne : e ≠ (s.ns.arena a).map i := by
    rintro rfl
    exact ((h.kept lane).latest a i _ hpc).2 hflag
  cases hhandle : s.handle with
  | none =>
    rw [h.closed hhandle lane] at hpc
    cases hpc
  | some b =>
    change sharedStep (.act lane) s = _
    unfold sharedStep
    rw [hhandle]
    dsimp only
    unfold Shared.act
    rw [hpc]
    dsimp only
    rw [if_neg hne]

/-- A step releases the entries of the calls that return if and only if no entry that is read
again has a flag. -/
theorem Shared.Released.event_releases_iff (h : s.Released) (e : FaultEvent lbasize) :
    Releases e s ↔ Steady e s := by
  constructor
  · intro hreleases entry hentry hflag
    obtain ⟨lane, a, i, e', rfl, hpc, rfl⟩ := FaultEvent.latest_eq_some hentry
    have hreturn := hreleases _ (h.act_readLatest hpc hflag) lane a
    have hnext : (s.setPc lane (.readLoop a i ((s.ns.arena a).map i))).pc lane =
        .readLoop a i ((s.ns.arena a).map i) := update_self _ _ _
    rw [hpc, hnext] at hreturn
    obtain ⟨hrow, he'⟩ := (h.kept lane).latest a i e' hpc
    have herror : e' = mapEntryError := hrow.symm.trans (hreturn rfl hflag)
    rw [herror] at he'
    exact he' (by decide)
  · intro hsteady t ht lane a _ hpc
    exact (h.faultStep hsteady ht).row_eq hpc a

/-- From a namespace on which nothing is in flight, every `btt_read` releases its entry in the read
tracking table if and only if every map entry that is read again is a normal one. -/
theorem releases_iff_steady (h : s.Vacant) (es : List (FaultEvent lbasize)) :
    Transition.Guarded faultStep Releases es s ↔ Transition.Guarded faultStep Steady es s :=
  Transition.guarded_congr (fun e _ h => h.event_releases_iff e)
    (fun e _ _ h he ht => h.faultStep ((h.event_releases_iff e).mp he) ht) es h.released

theorem freshShared_vacant : freshShared.Vacant := fun _ => ⟨rfl, fun _ => rfl⟩

def writtenRead : List (StepEvent 1) :=
  writeSteps (fun _ => 7) ++ [.call 1 (.read 1), .act 1, .act 1] ++ writeSteps (fun _ => 8) ++
    [.act 1, .act 1]

/-- The entry is read again, and then a read fails. -/
theorem releases_writtenRead : Transition.Guarded faultStep Releases
    (writtenRead.map .step ++ [.fail 1]) freshShared :=
  (releases_iff_steady freshShared_vacant _).mpr (by decide +kernel)

/-- LBA 1 is set to zero while lane 1 reads it. After lane 1 has returned, the block gets free, and
lane 0 is given it for another write. -/
def zeroedRead : List (StepEvent 1) :=
  writeSteps (fun _ => 7) ++ [.call 1 (.read 1), .act 1, .act 1, .call 0 (.setZero 1), .act 0,
    .act 0, .commit 0, .act 0, .act 1, .ret 1 (.block zeroBlock)] ++ writeSteps (fun _ => 8) ++
      [.call 0 (.write 1 fun _ => 9), .act 0]

def Shared.waitsFor (s : Shared lbasize) (lane : Nat) : Option Nat :=
  match s.pc lane with
  | .scan a _ freeEntry _ i => if s.rtt a i = freeEntry then some i else none
  | _ => none

/-- Lane 1 has returned and is not reading, and lane 0 waits for it. -/
theorem not_releases_zeroedRead :
    ¬ Transition.Guarded faultStep Releases (zeroedRead.map .step) freshShared ∧
      (Transition.run sharedStep zeroedRead freshShared).map (fun s => s.waitsFor 0) =
        some (some 1) := by
  constructor
  · rw [releases_iff_steady freshShared_vacant]
    decide +kernel
  · decide +kernel

end Pmdk.Btt
