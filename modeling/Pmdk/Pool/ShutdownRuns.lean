import Pmdk.Pool.ShutdownState

/-!
# Unsafe shutdowns are detected

A session that has marked the replica as dirty leaves a structure that names the present count, so
after an ADR failure each check fails, and a check that fails writes nothing.
-/

namespace Pmdk.Shutdown

open Transition List

variable {csum : Nat → Nat → Nat → Nat} {uuid : Nat} {s t : State}

theorem foldl_clear (csum : Nat → Nat → Nat → Nat) (order : List Field) (x : Sds) :
    (order.map Op.clear).foldl (fun x op => op.apply csum x) x =
      ⟨if .usc ∈ order then 0 else x.usc, if .uuid ∈ order then 0 else x.uuid,
        if .dirty ∈ order then 0 else x.dirty, if .checksum ∈ order then 0 else x.checksum⟩ := by
  induction order generalizing x with
  | nil => rfl
  | cons f order ih =>
    rw [map_cons, foldl_cons, ih]
    cases f <;> simp [Op.apply]

variable {order : List Field}

theorem foldl_clear_perm (csum : Nat → Nat → Nat → Nat)
    (h : order.Perm [.usc, .uuid, .dirty, .checksum]) (x : Sds) :
    (order.map Op.clear).foldl (fun x op => op.apply csum x) x = .zero := by
  rw [foldl_clear]
  simp [h.mem_iff, Sds.zero]

/-! ## Failures that happened are found -/

structure Marked (csum : Nat → Nat → Nat → Nat) (s : State) : Prop where
  verifies : s.sds.verifies csum = true
  dirty : s.sds.dirty ≠ 0
  usc : s.sds.usc = s.counter
  flushed : s.unflushed = [s.sds]

def State.execAll (csum : Nat → Nat → Nat → Nat) (ops : List Op) (s : State) : State :=
  ops.foldl (fun s op => s.exec csum op) s

theorem execAll_append (csum : Nat → Nat → Nat → Nat) (ops ops' : List Op) (s : State) :
    s.execAll csum (ops ++ ops') = (s.execAll csum ops).execAll csum ops' :=
  foldl_append

variable {x : Sds}

theorem execAll_sds (csum : Nat → Nat → Nat → Nat) (ops : List Op) (s : State) :
    (s.execAll csum ops).sds = ops.foldl (fun x op => op.apply csum x) s.sds := by
  induction ops generalizing s with
  | nil => rfl
  | cons op ops ih => exact ih _

theorem execAll_counter (csum : Nat → Nat → Nat → Nat) (ops : List Op) (s : State) :
    (s.execAll csum ops).counter = s.counter := by
  induction ops generalizing s with
  | nil => rfl
  | cons op ops ih => exact ih _

theorem marked_setDirty (h : s.sds.usc = s.counter) : Marked csum (s.execAll csum setDirty) := by
  refine ⟨?_, ?_, ?_, rfl⟩
  · simp [State.execAll, setDirty, stateChecksum, State.exec, Op.apply, Sds.verifies, Sds.sum]
  · simp [State.execAll, setDirty, stateChecksum, State.exec, Op.apply]
  · simpa [State.execAll, setDirty, stateChecksum, State.exec, Op.apply] using h

theorem usc_stateReinit (csum : Nat → Nat → Nat → Nat)
    (h : order.Perm [.usc, .uuid, .dirty, .checksum]) (curr : Sds) (s : State) :
    (s.execAll csum (stateReinit curr order)).sds.usc = curr.usc := by
  rw [execAll_sds]
  unfold stateReinit stateInit
  rw [append_assoc, append_assoc, foldl_append, foldl_clear_perm csum h]
  rfl

theorem usc_stateCheck {ops : List Op} (h : order.Perm [.usc, .uuid, .dirty, .checksum])
    (hops : stateCheck csum (current csum s.counter uuid) s.sds order = some ops) :
    (s.execAll csum ops).sds.usc = s.counter := by
  have hreinit := usc_stateReinit csum h (current csum s.counter uuid) s
  unfold stateCheck at hops
  split at hops
  · cases hops
    exact hreinit
  · split at hops
    · cases hops
      exact hreinit
    · split at hops
      · rename_i heq
        split at hops
        · cases hops
          exact heq.1
        · cases hops
          exact hreinit
      · split at hops
        · cases hops
          exact hreinit
        · cases hops

theorem inUse_iff : s.inUse = true ↔ s.isDirty = true ∧ s.clearing = false := by
  rw [State.inUse, Bool.and_eq_true, Bool.not_eq_true']

inductive Stepped (csum : Nat → Nat → Nat → Nat) (uuid : Nat) (s : State) : Event → State → Prop
  | fails {order : List Field} (hphase : s.phase = .none)
      (hcheck : stateCheck csum (current csum s.counter uuid) s.sds order = none) :
      Stepped csum uuid s (.check order) { s with
        modified := false, isDirty := false, clearing := false, killed := false, phase := .failed }
  | succeeds {order : List Field} {ops : List Op} (hphase : s.phase = .none)
      (hperm : order.Perm [.usc, .uuid, .dirty, .checksum])
      (hcheck : stateCheck csum (current csum s.counter uuid) s.sds order = some ops) :
      Stepped csum uuid s (.check order) { s with
        modified := false, isDirty := false, clearing := false, killed := false
        phase := .opening (ops ++ setDirty) }
  | opened (hphase : s.phase = .opening []) :
      Stepped csum uuid s .tick { s with phase := .used, isDirty := true }
  | opens {op : Op} {todo : List Op} (hphase : s.phase = .opening (op :: todo)) :
      Stepped csum uuid s .tick { s.exec csum op with phase := .opening todo }
  | drained (hphase : s.phase = .draining) : Stepped csum uuid s .tick { s with
      phase := .closing (if s.modified then clearDirty else []), clearing := true }
  | closed (hphase : s.phase = .closing []) : Stepped csum uuid s .tick { s with phase := .none }
  | closes {op : Op} {todo : List Op} (hphase : s.phase = .closing (op :: todo)) :
      Stepped csum uuid s .tick { s.exec csum op with phase := .closing todo }
  | close (hphase : s.phase = .failed ∨ s.phase = .used) :
      Stepped csum uuid s .close { s with phase := .draining }
  | kill (hphase : s.phase ≠ .none) :
      Stepped csum uuid s .kill { s with phase := .none, killed := true }
  | adr {left : Sds} (hleft : s.leaves left) : Stepped csum uuid s (.adr left) { s with
      sds := left, unflushed := [left], counter := s.counter + 1, phase := .none
      killed := s.killed || s.phase ≠ .none }

variable {counter : Nat} {e : Event}

theorem stepped (hstep : step csum uuid e s = some t) : Stepped csum uuid s e t := by
  cases e with
  | check order =>
    cases hphase : s.phase with
    | none =>
      simp only [step, hphase] at hstep
      split at hstep
      · rename_i hperm
        split at hstep
        · rename_i hcheck
          cases hstep
          exact .fails hphase hcheck
        · rename_i ops hcheck
          cases hstep
          exact .succeeds hphase hperm hcheck
      · cases hstep
    | opening todo => simp [step, hphase] at hstep
    | failed => simp [step, hphase] at hstep
    | used => simp [step, hphase] at hstep
    | draining => simp [step, hphase] at hstep
    | closing todo => simp [step, hphase] at hstep
  | tick =>
    cases hphase : s.phase with
    | none => simp [step, hphase] at hstep
    | opening todo =>
      cases todo with
      | nil =>
        simp only [step, hphase, Option.some.injEq] at hstep
        exact hstep ▸ .opened hphase
      | cons op todo =>
        simp only [step, hphase, Option.some.injEq] at hstep
        exact hstep ▸ .opens hphase
    | failed => simp [step, hphase] at hstep
    | used => simp [step, hphase] at hstep
    | draining =>
      simp only [step, hphase, Option.some.injEq] at hstep
      exact hstep ▸ .drained hphase
    | closing todo =>
      cases todo with
      | nil =>
        simp only [step, hphase, Option.some.injEq] at hstep
        exact hstep ▸ .closed hphase
      | cons op todo =>
        simp only [step, hphase, Option.some.injEq] at hstep
        exact hstep ▸ .closes hphase
  | close =>
    cases hphase : s.phase with
    | none => simp [step, hphase] at hstep
    | opening todo => simp [step, hphase] at hstep
    | failed =>
      simp only [step, hphase, Option.some.injEq] at hstep
      exact hstep ▸ .close (.inl hphase)
    | used =>
      simp only [step, hphase, Option.some.injEq] at hstep
      exact hstep ▸ .close (.inr hphase)
    | draining => simp [step, hphase] at hstep
    | closing todo => simp [step, hphase] at hstep
  | kill =>
    by_cases hphase : s.phase = .none
    · simp [step, hphase] at hstep
    · have hkill : step csum uuid .kill s = some { s with phase := .none, killed := true } := by
        cases h : s.phase with
        | none => exact absurd h hphase
        | opening todo => simp [step, h]
        | failed => simp [step, h]
        | used => simp [step, h]
        | draining => simp [step, h]
        | closing todo => simp [step, h]
      rw [hkill] at hstep
      cases hstep
      exact .kill hphase
  | adr left =>
    have hadr : step csum uuid (.adr left) s = if s.leaves left then some { s with
        sds := left, unflushed := [left], counter := s.counter + 1, phase := .none
        killed := s.killed || s.phase ≠ .none } else none := by
      cases h : s.phase <;> simp [step, h]
    rw [hadr] at hstep
    split at hstep
    · rename_i hleft
      cases hstep
      exact .adr hleft
    · cases hstep

structure Lost (csum : Nat → Nat → Nat → Nat) (s : State) : Prop where
  verifies : s.sds.verifies csum = true
  dirty : s.sds.dirty ≠ 0
  lt : s.sds.usc < s.counter
  flushed : s.unflushed = [s.sds]
  phase : s.phase = .none ∨ s.modified = false ∧
    (s.phase = .failed ∨ s.phase = .draining ∨ s.phase = .closing [])

theorem eq_of_leaves {left : Sds} (hflushed : s.unflushed = [s.sds]) (hleft : s.leaves left) :
    left = s.sds := by
  unfold State.leaves at hleft
  rw [hflushed] at hleft
  simp only [map_cons, map_nil, mem_singleton] at hleft
  obtain ⟨husc, huuid, hdirty, hsum⟩ := hleft
  cases left
  cases hsds : s.sds
  rw [hsds] at husc huuid hdirty hsum
  dsimp only at husc huuid hdirty hsum
  rw [husc, huuid, hdirty, hsum]

theorem Lost.stateCheck (h : Lost csum s) (order : List Field) :
    stateCheck csum (current csum s.counter uuid) s.sds order = none := by
  have hzero : s.sds ≠ .zero := fun heq => h.dirty (by rw [heq]; rfl)
  have husc : s.sds.usc ≠ s.counter := h.lt.ne
  unfold Shutdown.stateCheck
  rw [if_neg fun hand => hzero hand.1, if_neg (not_not.mpr h.verifies),
    if_neg fun hand => husc hand.1, if_neg h.dirty]

theorem Lost.stepped (h : Lost csum s) (hstep : Stepped csum uuid s e t) : Lost csum t := by
  obtain ⟨hverifies, hdirty, hlt, hflushed, hphase'⟩ := h
  cases hstep with
  | fails hphase hcheck => exact ⟨hverifies, hdirty, hlt, hflushed, .inr ⟨rfl, .inl rfl⟩⟩
  | succeeds hphase hperm hcheck =>
    rw [Lost.stateCheck ⟨hverifies, hdirty, hlt, hflushed, hphase'⟩] at hcheck
    cases hcheck
  | opened hphase => simp [hphase] at hphase'
  | opens hphase => simp [hphase] at hphase'
  | drained hphase =>
    have hmodified : s.modified = false := by
      rcases hphase' with hnone | ⟨hmod, -⟩
      · rw [hphase] at hnone
        cases hnone
      · exact hmod
    refine ⟨hverifies, hdirty, hlt, hflushed, .inr ⟨hmodified, .inr (.inr ?_)⟩⟩
    dsimp only
    rw [hmodified]
    rfl
  | closed hphase => exact ⟨hverifies, hdirty, hlt, hflushed, .inl rfl⟩
  | closes hphase => simp [hphase] at hphase'
  | close hphase =>
    have hmodified : s.modified = false := by
      rcases hphase' with hnone | ⟨hmod, -⟩
      · simp [hnone] at hphase
      · exact hmod
    exact ⟨hverifies, hdirty, hlt, hflushed, .inr ⟨hmodified, .inr (.inl rfl)⟩⟩
  | kill hphase => exact ⟨hverifies, hdirty, hlt, hflushed, .inl rfl⟩
  | adr hleft =>
    have hleft' := eq_of_leaves hflushed hleft
    subst hleft'
    exact ⟨hverifies, hdirty, Nat.lt_succ_of_lt hlt, rfl, .inl rfl⟩

theorem Marked.adr {left : Sds} (h : Marked csum s) (hleft : s.leaves left) :
    Lost csum { s with
      sds := left, unflushed := [left], counter := s.counter + 1, phase := .none
      killed := s.killed || s.phase ≠ .none } := by
  have hleft' := eq_of_leaves h.flushed hleft
  subst hleft'
  exact ⟨h.verifies, h.dirty, Nat.lt_succ_of_le h.usc.le, rfl, .inl rfl⟩

structure Marks (csum : Nat → Nat → Nat → Nat) (s : State) : Prop where
  opening : ∀ todo, s.phase = .opening todo → Marked csum (s.execAll csum todo) ∧ s.isDirty = false
  inUse : s.inUse = true → Marked csum s ∨ Lost csum s
  closing : ∀ todo, s.phase = .closing todo → s.clearing = true

theorem Marked.congr (h : Marked csum s) (hsds : t.sds = s.sds) (hcounter : t.counter = s.counter)
    (hunflushed : t.unflushed = s.unflushed) : Marked csum t :=
  ⟨hsds ▸ h.verifies, hsds ▸ h.dirty, (hsds ▸ h.usc).trans hcounter.symm,
    (hunflushed.trans h.flushed).trans (hsds ▸ rfl)⟩

theorem execAll_phase (csum : Nat → Nat → Nat → Nat) (ops : List Op) (s : State) (p : Phase) :
    ({ s with phase := p } : State).execAll csum ops = { s.execAll csum ops with phase := p } := by
  induction ops generalizing s with
  | nil => rfl
  | cons op ops ih => exact ih (s.exec csum op)

theorem Marks.stepped (h : Marks csum s) (hstep : Stepped csum uuid s e t) : Marks csum t := by
  have hstep' := hstep
  cases hstep with
  | fails hphase hcheck =>
    exact ⟨fun _ hopen => (by cases hopen), fun huse => (by cases huse),
      fun _ hclose => (by cases hclose)⟩
  | @succeeds order ops hphase hperm hcheck =>
    refine ⟨fun todo hopen => ?_, fun huse => (by cases huse), fun _ hclose => (by cases hclose)⟩
    cases hopen
    refine ⟨?_, rfl⟩
    rw [execAll_append]
    refine marked_setDirty ?_
    rw [execAll_counter]
    exact usc_stateCheck (s := { s with
      modified := false, isDirty := false, clearing := false, killed := false
      phase := .opening (ops ++ setDirty) }) hperm hcheck
  | opened hphase =>
    refine ⟨fun _ hopen => (by cases hopen), fun _ => .inl ?_, fun _ hclose => (by cases hclose)⟩
    exact (h.opening [] hphase).1.congr rfl rfl rfl
  | @opens op todo hphase =>
    obtain ⟨hmarked, hdirty⟩ := h.opening _ hphase
    refine ⟨fun todo' hopen => ?_, fun huse => ?_, fun _ hclose => (by cases hclose)⟩
    · cases hopen
      refine ⟨?_, hdirty⟩
      rw [execAll_phase]
      exact hmarked.congr rfl rfl rfl
    · exact absurd ((inUse_iff.mp huse).1.symm.trans hdirty) Bool.noConfusion
  | drained hphase =>
    refine ⟨fun _ hopen => (by cases hopen), fun huse => ?_, fun _ _ => rfl⟩
    exact absurd (inUse_iff.mp huse).2 Bool.noConfusion
  | closed hphase =>
    have hclearing := h.closing _ hphase
    refine ⟨fun _ hopen => (by cases hopen), fun huse => ?_, fun _ hclose => (by cases hclose)⟩
    exact absurd (hclearing.symm.trans (inUse_iff.mp huse).2) Bool.noConfusion
  | closes hphase =>
    have hclearing := h.closing _ hphase
    refine ⟨fun _ hopen => (by cases hopen), fun huse => ?_, fun _ _ => hclearing⟩
    exact absurd (hclearing.symm.trans (inUse_iff.mp huse).2) Bool.noConfusion
  | close hphase =>
    refine ⟨fun _ hopen => (by cases hopen), fun huse => ?_, fun _ hclose => (by cases hclose)⟩
    exact (h.inUse huse).imp (fun hm => hm.congr rfl rfl rfl) fun hl => hl.stepped hstep'
  | kill hphase =>
    refine ⟨fun _ hopen => (by cases hopen), fun huse => ?_, fun _ hclose => (by cases hclose)⟩
    exact (h.inUse huse).imp (fun hm => hm.congr rfl rfl rfl) fun hl => hl.stepped hstep'
  | adr hleft =>
    refine ⟨fun _ hopen => (by cases hopen), fun huse => .inr ?_, fun _ hclose =>
        (by cases hclose)⟩
    rcases h.inUse huse with hmarked | hlost
    · exact hmarked.adr hleft
    · exact hlost.stepped hstep'

/-! ## No failure is invented -/

def Present (counter uuid : Nat) (x : Sds) : Prop :=
  x.dirty ≠ 0 → x.usc = counter ∧ x.uuid = uuid

def Known (csum : Nat → Nat → Nat → Nat) (counter uuid : Nat) (x : Sds) : Prop :=
  ∃ y : Sds, x.checksum = y.sum csum ∧ Present counter uuid y

def Checks (csum : Nat → Nat → Nat → Nat) (counter uuid : Nat) : List Op → Sds → Prop
  | [], _ => True
  | op :: ops, x => (op = .checksum → Present counter uuid x) ∧
      Checks csum counter uuid ops (op.apply csum x)

theorem checks_append {ops ops' : List Op} (h : Checks csum counter uuid ops x)
    (h' : Checks csum counter uuid ops' (ops.foldl (fun x op => op.apply csum x) x)) :
    Checks csum counter uuid (ops ++ ops') x := by
  induction ops generalizing x with
  | nil => exact h'
  | cons op ops ih => exact ⟨h.1, ih h.2 h'⟩

theorem checks_clear (csum : Nat → Nat → Nat → Nat) (counter uuid : Nat) (order : List Field)
    (x : Sds) : Checks csum counter uuid (order.map Op.clear) x := by
  induction order generalizing x with
  | nil => trivial
  | cons f order ih => exact ⟨fun heq => (by cases heq), ih _⟩

theorem Known.apply {op : Op} (hcsum : Ideal csum)
    (h : Known csum counter uuid x) (hop : op = .checksum → Present counter uuid x) :
    Known csum counter uuid (op.apply csum x) := by
  cases op with
  | clear f =>
    cases f with
    | checksum => exact ⟨.zero, hcsum.zero.symm, fun hdirty => absurd rfl hdirty⟩
    | usc => exact h
    | uuid => exact h
    | dirty => exact h
  | checksum => exact ⟨x, rfl, hop rfl⟩
  | usc v => exact h
  | uuid v => exact h
  | dirty v => exact h
  | flush => exact h
  | markModified => exact h

theorem Known.stateCheck (hcsum : Ideal csum) (h : Known csum counter uuid x) (order : List Field) :
    stateCheck csum (current csum counter uuid) x order ≠ none := by
  obtain ⟨y, hsum, hpresent⟩ := h
  unfold Shutdown.stateCheck
  split
  · exact Option.some_ne_none _
  · split
    · exact Option.some_ne_none _
    · rename_i hverifies
      have heq : y.sum csum = x.sum csum :=
        hsum.symm.trans (of_decide_eq_true (not_not.mp hverifies))
      obtain ⟨husc, huuid, hdirty⟩ := hcsum.inj heq
      split
      · split <;> exact Option.some_ne_none _
      · rename_i hne
        split
        · exact Option.some_ne_none _
        · rename_i hx
          have hy := hpresent (hdirty ▸ hx)
          exact absurd ⟨husc ▸ hy.1, huuid ▸ hy.2⟩ hne

theorem checks_setDirty (husc : x.usc = counter) (huuid : x.uuid = uuid) :
    Checks csum counter uuid setDirty x :=
  ⟨fun heq => (by cases heq), fun heq => (by cases heq), fun heq => (by cases heq),
    fun _ _ => ⟨husc, huuid⟩, fun heq => (by cases heq), trivial⟩

theorem checks_clearDirty (csum : Nat → Nat → Nat → Nat) (counter uuid : Nat) (x : Sds) :
    Checks csum counter uuid clearDirty x :=
  ⟨fun heq => (by cases heq), fun heq => (by cases heq), fun _ hdirty => absurd rfl hdirty,
    fun heq => (by cases heq), trivial⟩

theorem checks_stateReinit (csum : Nat → Nat → Nat → Nat)
    (h : order.Perm [.usc, .uuid, .dirty, .checksum]) (counter uuid : Nat) (x : Sds) :
    Checks csum counter uuid (stateReinit (current csum counter uuid) order ++ setDirty) x := by
  unfold stateReinit stateInit
  rw [append_assoc, append_assoc, append_assoc]
  refine checks_append (checks_clear csum counter uuid order x) ?_
  rw [foldl_clear_perm csum h]
  refine ⟨fun _ hdirty => absurd rfl hdirty, fun heq => (by cases heq), fun heq => (by cases heq),
    fun heq => (by cases heq), fun heq => (by cases heq), fun heq => (by cases heq),
    fun _ hdirty => absurd rfl hdirty, fun heq => (by cases heq), checks_setDirty rfl rfl⟩

theorem checks_stateCheck {ops : List Op} (h : order.Perm [.usc, .uuid, .dirty, .checksum])
    (hops : stateCheck csum (current csum counter uuid) x order = some ops) :
    Checks csum counter uuid (ops ++ setDirty) x := by
  have hreinit := checks_stateReinit csum h counter uuid x
  unfold stateCheck at hops
  split at hops
  · cases hops
    exact hreinit
  · split at hops
    · cases hops
      exact hreinit
    · split at hops
      · rename_i heq
        split at hops
        · cases hops
          exact checks_setDirty heq.1 heq.2
        · cases hops
          exact hreinit
      · split at hops
        · cases hops
          exact hreinit
        · cases hops

structure Sound (csum : Nat → Nat → Nat → Nat) (uuid : Nat) (s : State) : Prop where
  known : Known csum s.counter uuid s.sds
  opening : ∀ todo, s.phase = .opening todo → Checks csum s.counter uuid todo s.sds
  closing : ∀ todo, s.phase = .closing todo → Checks csum s.counter uuid todo s.sds
  phase : s.phase ≠ .failed

theorem Sound.stepped (hcsum : Ideal csum) (h : Sound csum uuid s)
    (hadr : ∀ left, e ≠ .adr left) (hstep : Stepped csum uuid s e t) : Sound csum uuid t := by
  cases hstep with
  | fails hphase hcheck => exact absurd hcheck (h.known.stateCheck hcsum _)
  | succeeds hphase hperm hcheck =>
    refine ⟨h.known, fun todo hopen => ?_, fun _ hclose => (by cases hclose),
      fun hfail => (by cases hfail)⟩
    cases hopen
    exact checks_stateCheck hperm hcheck
  | opened hphase =>
    exact ⟨h.known, fun _ hopen => (by cases hopen), fun _ hclose => (by cases hclose),
      fun hfail => (by cases hfail)⟩
  | opens hphase =>
    obtain ⟨hop, htodo⟩ := h.opening _ hphase
    refine ⟨h.known.apply hcsum hop, fun todo hopen => ?_, fun _ hclose => (by cases hclose),
      fun hfail => (by cases hfail)⟩
    cases hopen
    exact htodo
  | drained hphase =>
    refine ⟨h.known, fun _ hopen => (by cases hopen), fun todo hclose => ?_,
      fun hfail => (by cases hfail)⟩
    cases hclose
    split
    · exact checks_clearDirty csum _ uuid _
    · trivial
  | closed hphase =>
    exact ⟨h.known, fun _ hopen => (by cases hopen), fun _ hclose => (by cases hclose),
      fun hfail => (by cases hfail)⟩
  | closes hphase =>
    obtain ⟨hop, htodo⟩ := h.closing _ hphase
    refine ⟨h.known.apply hcsum hop, fun _ hopen => (by cases hopen), fun todo hclose => ?_,
      fun hfail => (by cases hfail)⟩
    cases hclose
    exact htodo
  | close hphase =>
    exact ⟨h.known, fun _ hopen => (by cases hopen), fun _ hclose => (by cases hclose),
      fun hfail => (by cases hfail)⟩
  | kill hphase =>
    exact ⟨h.known, fun _ hopen => (by cases hopen), fun _ hclose => (by cases hclose),
      fun hfail => (by cases hfail)⟩
  | adr hleft => exact absurd rfl (hadr _)

/-! ## Runs -/

theorem marks_init (csum : Nat → Nat → Nat → Nat) (uuid counter : Nat) :
    Marks csum (init csum uuid counter) :=
  ⟨fun _ hopen => (by cases hopen), fun huse => (by cases huse), fun _ hclose => (by cases hclose)⟩

theorem sound_init (csum : Nat → Nat → Nat → Nat) (uuid counter : Nat) :
    Sound csum uuid (init csum uuid counter) :=
  ⟨⟨current csum counter uuid, rfl, fun hdirty => absurd rfl hdirty⟩,
    fun _ hopen => (by cases hopen), fun _ hclose => (by cases hclose),
    fun hfail => (by cases hfail)⟩

variable {events : List Event}

theorem marks_run
    (h : run (step csum uuid) events (init csum uuid counter) = some s) : Marks csum s :=
  run_invariant (G := fun _ _ => True) (fun _ _ _ _ hs _ hstep => hs.stepped (stepped hstep))
    (.of_forall (fun _ _ => trivial) _ _) (marks_init csum uuid counter) h

theorem Lost.run (hlost : Lost csum s) (h : run (step csum uuid) events s = some t) : Lost csum t :=
  run_invariant (G := fun _ _ => True) (fun _ _ _ _ hs _ hstep => hs.stepped
      (Shutdown.stepped hstep))
    (.of_forall (fun _ _ => trivial) _ _) hlost h

/-- A failure while the replica was in use makes every later check fail. -/
theorem failed_of_inUse {later : List Event} {left : Sds} {s' u : State}
    (hrun : run (step csum uuid) events (init csum uuid counter) = some s) (huse : s.inUse = true)
    (hadr : step csum uuid (.adr left) s = some s')
    (hlater : run (step csum uuid) later s' = some t)
    (hcheck : step csum uuid (.check order) t = some u) : u.phase = .failed := by
  have hlost : Lost csum s' := by
    rcases (marks_run hrun).inUse huse with hmarked | hlost
    · cases stepped hadr with
      | adr hleft => exact hmarked.adr hleft
    · exact hlost.stepped (stepped hadr)
  have ht := hlost.run hlater
  cases stepped hcheck with
  | fails hphase hnone => rfl
  | succeeds hphase hperm hsome =>
    rw [ht.stateCheck] at hsome
    cases hsome

theorem phase_ne_failed (hcsum : Ideal csum)
    (hrun : run (step csum uuid) events (init csum uuid counter) = some s)
    (hadr : ∀ left, .adr left ∉ events) : s.phase ≠ .failed := by
  have hsound : Sound csum uuid s := by
    refine run_invariant (G := fun _ _ => True) ?_ (.of_forall (fun _ _ => trivial) _ _)
      (sound_init csum uuid counter) hrun
    intro e he x y hx _ hstep
    exact hx.stepped hcsum (fun left heq => hadr left (heq ▸ he)) (stepped hstep)
  exact hsound.phase

/-- Unsafe shutdowns are not missed and not invented. -/
theorem shutdowns_detected (hcsum : Ideal csum) (uuid counter : Nat) :
    (∀ events later left order s s' t u,
      run (step csum uuid) events (init csum uuid counter) = some s → s.inUse = true →
      step csum uuid (.adr left) s = some s' → run (step csum uuid) later s' = some t →
      step csum uuid (.check order) t = some u → u.phase = .failed) ∧
    (∀ events s, run (step csum uuid) events (init csum uuid counter) = some s →
      (∀ left, .adr left ∉ events) → s.phase ≠ .failed) :=
  ⟨fun _ _ _ _ _ _ _ _ hrun huse hadr hlater hcheck =>
      failed_of_inUse hrun huse hadr hlater hcheck,
    fun _ _ hrun hadr => phase_ne_failed hcsum hrun hadr⟩

def pairing (usc uuid dirty : Nat) : Nat := Nat.pair (Nat.pair usc uuid) dirty

theorem ideal_pairing : Ideal pairing where
  inj h := by
    obtain ⟨hpair, hdirty⟩ := Nat.pair_eq_pair.mp h
    obtain ⟨husc, huuid⟩ := Nat.pair_eq_pair.mp hpair
    exact ⟨husc, huuid, hdirty⟩
  zero := rfl

def ascending : List Field := [.usc, .uuid, .dirty, .checksum]

def opens : List Event := [.check ascending, .tick, .tick, .tick, .tick, .tick, .tick]

def marked : Sds := ⟨1, 3, 1, 111⟩

theorem shutdowns_detected_twice :
    (∃ s s' t u, run (step pairing 3) opens (init pairing 3 1) = some s ∧ s.inUse = true ∧
      step pairing 3 (.adr marked) s = some s' ∧
      run (step pairing 3) [.check ascending, .close, .tick, .tick] s' = some t ∧
      step pairing 3 (.check ascending) t = some u ∧ u.phase = .failed) ∧
    ∃ s, run (step pairing 3) (opens ++ [.kill, .check ascending]) (init pairing 3 1) = some s ∧
      s.phase ≠ .failed := by
  obtain ⟨hfound, hnone⟩ := shutdowns_detected ideal_pairing 3 1
  constructor
  · have hopens : run (step pairing 3) opens (init pairing 3 1) =
        some ⟨marked, [marked], 1, .used, true, true, false, false⟩ := by decide
    have hlater : run (step pairing 3) [.check ascending, .close, .tick, .tick]
        ⟨marked, [marked], 2, .none, true, true, false, true⟩ =
          some ⟨marked, [marked], 2, .none, false, false, true, false⟩ := by decide
    have hcheck : step pairing 3 (.check ascending)
        ⟨marked, [marked], 2, .none, false, false, true, false⟩ =
          some ⟨marked, [marked], 2, .failed, false, false, false, false⟩ := by decide
    exact ⟨_, _, _, _, hopens, rfl, rfl, hlater, hcheck,
      hfound _ _ marked _ _ _ _ _ hopens rfl rfl hlater hcheck⟩
  · obtain ⟨s, hs⟩ := Option.isSome_iff_exists.mp
      (by decide : (run (step pairing 3) (opens ++ [.kill, .check ascending])
        (init pairing 3 1)).isSome)
    exact ⟨s, hs, hnone _ s hs fun left hmem => by simp [opens] at hmem⟩

/-- The session has completed `shutdown_state_set_dirty`, and did not come to
`shutdown_state_clear_dirty` or was killed. -/
def State.inUseOrKilled (s : State) : Bool := s.isDirty && (!s.clearing || s.killed)

/-- A session that is killed after the flag was cleared and before the checksum was stored is not
noticed, as the deep drain was done before. -/
theorem not_detected_closing :
    ∃ s s' u, run (step pairing 3) (opens ++ [.close, .tick, .tick, .kill]) (init pairing 3 1) =
        some s ∧ s.inUseOrKilled = true ∧ step pairing 3 (.adr ⟨1, 3, 0, 111⟩) s = some s' ∧
      step pairing 3 (.check ascending) s' = some u ∧ u.phase ≠ .failed := by
  have hrun : run (step pairing 3) (opens ++ [.close, .tick, .tick, .kill]) (init pairing 3 1) =
      some ⟨⟨1, 3, 0, 111⟩, [⟨1, 3, 0, 111⟩, marked], 1, .none, true, true, true, true⟩ := by
    decide
  exact ⟨_, _, _, hrun, rfl, rfl, rfl, by decide⟩

end Pmdk.Shutdown
