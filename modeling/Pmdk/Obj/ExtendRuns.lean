import Pmdk.Obj.ExtendReuse

/-!
# Crash safety of the extension of the heap

The invariant holds in every session, across crashes between any two stores or persists, as long
as there is room in the last zone for as many chunks as its size gives, and the header of the heap
is taken into account.
-/

namespace Pmdk.Extend

open Persist Chunk

def Act.Issued : Act → State → Prop
  | .extend size, _ => size % 4096 = 0 ∧ pmemobjMinPart ≤ size
  | .crash images sizes sizep, s =>
    (∀ id, (s.zones id).MayHold (images id) (sizes id)) ∧ s.sizep.Holds sizep
  | _, _ => True

/-- The next step, if it calculates the size of the last zone from the persistent size of the
heap, finds room there, and `heap_extend` does not find fewer zones than there are. -/
def State.HasRoom (s : State) : Phase → Prop
  | .updating i => i + 1 = s.nzones → (s.zones i).sizeIdx.cur ≠ 0 → Room s.file s.sizep.cur i
  | .grown => s.nzones ≤ heapMaxZone s.sizep.cur ∧
      Room s.file s.sizep.cur (heapMaxZone s.sizep.cur - 1)
  | _ => True

def Act.Fits : Act → State → Prop
  | .populate, s => s.phase = .idle → s.exhausted + 1 = s.nzones →
      (s.zones s.exhausted).sizeIdx.cur = 0 → Room s.file s.sizep.cur s.exhausted
  | .tick, s => s.todo = [] → s.HasRoom s.phase
  | _, _ => True

instance (file sizep id : Nat) : Decidable (Room file sizep id) :=
  inferInstanceAs (Decidable (_ ∧ _ ∧ _))

instance (s : State) : ∀ p, Decidable (s.HasRoom p)
  | .updating _ => inferInstanceAs (Decidable (_ → _ → Room _ _ _))
  | .grown => inferInstanceAs (Decidable (_ ∧ _))
  | .down | .idle | .walking _ _ | .reusing _ _ | .aborted => isTrue trivial

instance : ∀ (a : Act) (s : State), Decidable (a.Fits s)
  | .populate, _ => inferInstanceAs (Decidable (_ → _ → _ → Room _ _ _))
  | .tick, s => inferInstanceAs (Decidable (_ → s.HasRoom s.phase))
  | .boot, _ | .extend _, _ | .crash _ _ _, _ => isTrue trivial

/-- No assertion failed, the zones have chunks inside of the mapped region, and whatever a crash
leaves of their headers, the chunks tile the zone. -/
structure State.Good (s : State) : Prop where
  alive : s.phase ≠ .aborted
  size : ∀ id n, (s.zones id).sizeIdx.Holds n → n = 0 ∨ 1 ≤ n ∧ n ≤ maxChunk ∧
    heapHeaderSize + zoneEnd id n ≤ s.file
  tiled : ∀ id, Safe (s.zones id)

theorem Inv.good {s : State} (h : Inv s) : s.Good := by
  refine ⟨fun hphase => ?_, fun id n hn => ?_, fun id => (h.core.calm id).quiet.safe⟩
  · have hfalse := h.phase
    rw [hphase] at hfalse
    exact hfalse
  · rcases h.core.sizeIdx id hn with hzero | hok
    · exact .inl hzero
    · by_cases hzero : n = 0
      · exact .inl hzero
      · exact .inr ⟨Nat.one_le_iff_ne_zero.mpr hzero, hok.le, hok.mapped⟩

theorem inv_init {size : Nat} (h : heapMinSize ≤ size) : Inv (init size) := by
  have htidy : ∀ ok : Nat → Prop, Tidy ok (Zone.ofImage (fun _ => ⟨.unknown, 0, 0⟩) 0) := by
    intro ok
    refine ⟨⟨rfl, [], rfl⟩, .inl rfl, fun k v hv => .inl ?_⟩
    rw [Cell.holds_clean.mp hv]
  refine ⟨⟨fun v hv => ?_, Nat.zero_le _, fun id => htidy _, fun id _ => ⟨rfl, rfl⟩, ?_⟩, ?_,
    Nat.le_refl _, fun h => absurd rfl h, rfl⟩
  · rw [Cell.holds_clean.mp hv]
    exact ⟨h, Nat.le_refl _⟩
  · intro b hb
    exact absurd hb List.not_mem_nil
  · exact ⟨fun _ => rfl, fun hphase => (by cases hphase), fun _ => rfl, fun _ => ⟨0, [], rfl⟩⟩

variable {s t : State}

theorem todoOk_of_map {s : State} {id : Nat} {ms : List Micro} (hdown : s.phase ≠ .down)
    (hphase : s.phase ≠ .grown) (hstale : s.sizep.stale = [])
    (htodo : s.todo = ms.map (Store.zone id)) : TodoOk s :=
  ⟨fun h => absurd h hdown, fun h => absurd h hphase, fun _ => hstale, fun _ => ⟨id, ms, htodo⟩⟩

theorem todoOk_of_nil {s : State} (hphase : s.phase ≠ .grown) (hstale : s.sizep.stale = [])
    (htodo : s.todo = []) : TodoOk s :=
  ⟨fun _ => htodo, fun h => absurd h hphase, fun _ => hstale, fun _ => ⟨0, [], htodo⟩⟩

theorem todoOk_of_growing {s : State} (hphase : s.phase = .grown)
    (hgrowing : Growing s.file s.sizep s.nzones s.zones s.todo) : TodoOk s :=
  ⟨fun h => (by rw [hphase] at h; cases h), fun _ => hgrowing, fun h => absurd hphase h,
      fun h => absurd hphase h⟩

/-! ## Stores -/

variable {zone : Nat} {todo : List Store}

theorem Inv.exec_zone {m : Micro} (h : Inv s)
    (htodo : s.todo = .zone zone m :: todo) : Inv { s.exec (.zone zone m) with todo } := by
  have hcore := h.core
  rw [htodo] at hcore
  refine ⟨hcore.exec_zone, ?_, h.exhausted_le, h.nzones_pos, ?_⟩
  · have hphase : s.phase ≠ .grown := by
      intro hphase
      have hgrowing := h.todo.growing hphase
      rw [htodo] at hgrowing
      cases hgrowing
    obtain ⟨id, ms, hms⟩ := h.todo.zone hphase
    rw [htodo] at hms
    cases ms with
    | nil => cases hms
    | cons m' ms =>
      rw [List.map_cons, List.cons.injEq] at hms
      refine todoOk_of_map (fun hdown => ?_) hphase (h.todo.stale hphase) hms.2
      have hnil := h.todo.down hdown
      rw [htodo] at hnil
      cases hnil
  · have hphase := h.phase
    rw [htodo, ← final_cons] at hphase
    exact hphase

theorem Inv.exec_growing {st : Store} (h : Inv s) (hphase : s.phase = .grown)
    (htodo : s.todo = st :: todo) : Inv { s.exec st with todo } := by
  have hgrowing := h.todo.growing hphase
  rw [htodo] at hgrowing
  have hcore := h.core
  have hlast := h.phase
  rw [hphase] at hlast
  have hheld : s.sizep.stale = [] → ∀ v, s.sizep.Holds v → v = s.sizep.cur := by
    intro hstale v hv
    simpa [Cell.Holds, hstale] using hv
  have hpending : ∀ {todo : List Store}, (∀ id, pending id todo = []) →
      final s.zones todo = s.zones := by
    intro todo hnil
    funext id
    rw [final, hnil]
    rfl
  have hphase' : ∀ {todo : List Store}, (∀ id, pending id s.todo = []) →
      (∀ id, pending id todo = []) →
      PhaseOk (final s.zones todo) s.bucket s.nzones s.exhausted s.phase := by
    intro todo hnil hnil'
    rw [hphase, hpending hnil']
    rw [hpending hnil] at hlast
    exact hlast
  cases hgrowing with
  | file f n hstale hfile hn hsize =>
    refine ⟨hcore.mono (fun v hv => ?_) hfile (fun v hv => ⟨v, hv, Nat.le_refl v⟩)
      (Nat.le_refl _) ?_ fun id => ?_, ?_, h.exhausted_le, h.nzones_pos, ?_⟩
    · exact ⟨(hcore.size v hv).1, Nat.le_trans (hcore.size v hv).2 hfile⟩
    · exact Nat.le_trans hcore.nzones_le (heapMaxZone_mono hfile)
    · rw [htodo]
      rfl
    · exact todoOk_of_growing hphase (.size n hstale hn hsize)
    · exact hphase' (fun id => by rw [htodo]; rfl) fun id => rfl
  | size n hstale hn hsize =>
    have hcur := hcore.size s.sizep.cur (.inl rfl)
    have hpart : 0 < pmemobjMinPart := by decide
    refine ⟨hcore.mono (fun v hv => ?_) (Nat.le_refl _) (fun v hv => ?_) (Nat.le_refl _)
      hcore.nzones_le fun id => ?_, ?_, h.exhausted_le, h.nzones_pos, ?_⟩
    · rcases Cell.holds_store.mp hv with rfl | hv
      · exact ⟨by omega, hn⟩
      · exact hcore.size v hv
    · rcases Cell.holds_store.mp hv with rfl | hv
      · exact ⟨s.sizep.cur, .inl rfl, by omega⟩
      · exact ⟨v, hv, Nat.le_refl v⟩
    · rw [htodo]
      rfl
    · refine todoOk_of_growing hphase (.persist fun id hid => ?_)
      rcases hcore.sizeIdx id (.inl rfl) with hzero | hok
      · exact .inl hzero
      · right
        rcases hok.sized with hlt | hsized
        · have hid : id + 1 = s.nzones := hid
          omega
        · have hle := hsized s.sizep.cur (.inl rfl)
          exact Nat.le_trans (Nat.add_le_add_right hle _) hsize
    · exact hphase' (fun id => by rw [htodo]; rfl) fun id => rfl
  | persist hlarger =>
    refine ⟨hcore.mono (fun v hv => ?_) (Nat.le_refl _) (fun v hv => ?_) (Nat.le_refl _)
      hcore.nzones_le fun id => ?_, ?_, h.exhausted_le, h.nzones_pos, ?_⟩
    · rw [Cell.holds_persist.mp hv]
      exact hcore.size _ (.inl rfl)
    · rw [Cell.holds_persist.mp hv]
      exact ⟨_, .inl rfl, Nat.le_refl _⟩
    · rw [htodo]
      rfl
    · exact todoOk_of_growing hphase (.done rfl hlarger)
    · exact hphase' (fun id => by rw [htodo]; rfl) fun id => rfl

theorem Inv.exec {st : Store} (h : Inv s) (htodo : s.todo = st :: todo) :
    Inv { s.exec st with todo } := by
  by_cases hphase : s.phase = .grown
  · exact h.exec_growing hphase htodo
  · obtain ⟨id, ms, hms⟩ := h.todo.zone hphase
    rw [htodo] at hms
    cases ms with
    | nil => cases hms
    | cons m ms =>
      rw [List.map_cons, List.cons.injEq] at hms
      obtain ⟨rfl, -⟩ := hms
      exact h.exec_zone htodo

/-! ## Steps -/

theorem State.zoneInit_eq {next : State} {first n : Nat}
    (hcalc : zoneCalcSizeIdx zone s.nzones s.sizep.cur = some n) (hlt : first < n) :
    s.zoneInit zone first next = { next with todo := heapZoneInit zone first n } := by
  rw [State.zoneInit, hcalc]
  exact if_neg (by omega)

theorem LastOnly.update {zones : Nat → Zone} {bucket : List Block} {exhausted : Nat}
    {z : Zone} (h : LastOnly zones bucket exhausted)
    (hnone : ∀ b ∈ bucket, exhausted ≤ b.zone → b.zone ≠ zone) :
    LastOnly (Function.update zones zone z) bucket exhausted := by
  intro b hb hexhausted
  rw [Function.update_of_ne (hnone b hb hexhausted)]
  exact h b hb hexhausted

theorem Core.no_block {file nzones : Nat} {sizep : Cell Nat} {zones : Nat → Zone}
    {bucket : List Block} (h : Core file sizep nzones zones [] bucket)
    (hzero : (zones zone).sizeIdx.cur = 0) : ∀ b ∈ bucket, b.zone ≠ zone := by
  intro b hb heq
  have hlt : b.chunk < (zones b.zone).sizeIdx.cur := (h.block b hb).1.1
  rw [heq, hzero] at hlt
  exact absurd hlt (Nat.not_lt_zero _)

theorem Inv.step_boot (h : Inv s) (hstep : step .boot s = some t) : Inv t := by
  have hsize := h.core.size s.sizep.cur (.inl rfl)
  rw [step] at hstep
  split at hstep
  · cases hstep
  rename_i hdown
  have hdown := not_not.mp hdown
  have htodo := h.todo.down hdown
  have hstale := h.todo.stale (by rw [hdown]; decide)
  have hne : s.sizep.cur ≠ 0 := by
    intro hzero
    rw [hzero] at hsize
    exact absurd hsize.1 (by decide)
  rw [if_neg hne, if_neg (Nat.not_lt.mpr hsize.2)] at hstep
  have hcore := h.core
  rw [htodo] at hcore
  have hpos : 0 < heapMaxZone s.file := heapMaxZone_pos (Nat.le_trans hsize.1 hsize.2)
  obtain ⟨nzones, hnzones⟩ : ∃ n, heapMaxZone s.file = n := ⟨_, rfl⟩
  rw [hnzones] at hstep hpos
  cases hstep
  have hgrown : Core s.file s.sizep nzones s.zones [] s.bucket :=
    hcore.mono hcore.size (Nat.le_refl _) (fun v hv => ⟨v, hv, Nat.le_refl v⟩)
      (hnzones ▸ hcore.nzones_le) (Nat.le_of_eq hnzones.symm) fun _ => rfl
  exact ⟨⟨hgrown.size, hgrown.nzones_le, hgrown.calm, hgrown.unused,
    fun b hb => absurd hb List.not_mem_nil⟩,
    todoOk_of_nil (fun hphase => by cases hphase) hstale rfl, Nat.zero_le _, fun _ => hpos, rfl⟩

theorem Inv.step_crash {images : Nat → Nat → Header} {sizes : Nat → Nat} {sizep : Nat}
    (h : Inv s) (hissued : (Act.crash images sizes sizep).Issued s)
    (hstep : step (.crash images sizes sizep) s = some t) : Inv t := by
  obtain ⟨himages, hsizep⟩ := hissued
  cases hstep
  refine ⟨⟨fun v hv => ?_, h.core.nzones_le, fun id => ?_, fun id hid => ?_, ?_⟩, ?_,
    h.exhausted_le, fun h => absurd rfl h, rfl⟩
  · rw [Cell.holds_clean.mp hv]
    exact h.core.size sizep hsizep
  · refine Tidy.mono ((h.core.calm id).quiet _ _ (himages id)) fun n hn => ?_
    refine hn.mono (Nat.le_refl _) (fun v hv => ⟨v, ?_, Nat.le_refl v⟩) (Nat.le_refl _)
    rw [Cell.holds_clean.mp hv]
    exact hsizep
  · have hzero := (himages id).2
    rw [(h.core.unused id hid).1, Cell.holds_clean] at hzero
    exact ⟨congrArg Cell.clean hzero, rfl⟩
  · intro b hb
    exact absurd hb List.not_mem_nil
  · exact ⟨fun _ => rfl, fun hphase => (by cases hphase), fun _ => rfl, fun _ => ⟨0, [], rfl⟩⟩

theorem Inv.step_extend {size : Nat} (h : Inv s) (hissued : (Act.extend size).Issued s)
    (hstep : step (.extend size) s = some t) : Inv t := by
  rw [step] at hstep
  split at hstep
  · cases hstep
  rename_i hidle
  rw [not_or, not_not, not_not] at hidle
  obtain ⟨hidle, htodo⟩ := hidle
  cases hstep
  have hcore := h.core
  have hlast := h.phase
  rw [htodo] at hcore
  rw [hidle, htodo] at hlast
  have hstale := h.todo.stale (by rw [hidle]; decide)
  have hpos := h.nzones_pos (by rw [hidle]; decide)
  have hcur := (hcore.size s.sizep.cur (.inl rfl)).2
  refine ⟨hcore.mono hcore.size (Nat.le_refl _) (fun v hv => ⟨v, hv, Nat.le_refl v⟩)
    (Nat.le_refl _) hcore.nzones_le fun id => rfl, todoOk_of_growing rfl ?_, h.exhausted_le,
    fun _ => hpos, hlast⟩
  exact .file _ _ hstale (Nat.le_add_right _ _) (Nat.add_le_add_right hcur _)
    (Nat.add_le_add_left hissued.2 _)

theorem Inv.step_populate (h : Inv s) (hfits : Act.populate.Fits s)
    (hstep : step .populate s = some t) : Inv t := by
  rw [step] at hstep
  split at hstep
  · cases hstep
  rename_i hidle
  rw [not_or, not_not, not_not] at hidle
  obtain ⟨hidle, htodo⟩ := hidle
  split at hstep
  · cases hstep
    exact h
  rename_i hne
  have hcore := h.core
  have hlast := h.phase
  rw [htodo] at hcore
  rw [hidle, htodo] at hlast
  have hstale := h.todo.stale (by rw [hidle]; decide)
  have hpos := h.nzones_pos (by rw [hidle]; decide)
  have hzone : s.exhausted < s.nzones := Nat.lt_of_le_of_ne h.exhausted_le hne
  have hrest : LastOnly (final s.zones []) s.bucket (s.exhausted + 1) :=
    fun b hb hle => hlast b hb (Nat.le_of_succ_le hle)
  dsimp only at hstep
  split at hstep
  · rename_i hzero
    obtain ⟨n, ms, hcalc, hlt, hinit, hcore', -⟩ := hcore.zoneInit hstale hzone
      (fun hlast => hfits hidle hlast hzero) fun n _ hpos _ => hzero ▸ hpos
    rw [hzero] at hlt hinit
    rw [State.zoneInit_eq hcalc hlt, hinit] at hstep
    cases hstep
    have hnone := hcore.no_block hzero
    refine ⟨hcore', todoOk_of_map (fun hphase => by cases hphase) (fun hphase => by cases hphase)
      hstale rfl, hzone, fun _ => hpos, rfl, hzone, ?_, boundary_zero _,
      fun b hb heq => absurd heq (hnone b hb), fun b hb heq => absurd heq (hnone b hb)⟩
    dsimp only
    rw [final_map]
    exact hrest.update fun b hb _ => hnone b hb
  · cases hstep
    refine ⟨h.core, todoOk_of_nil (fun hphase => by cases hphase) hstale htodo, hzone,
        fun _ => hpos, ?_⟩
    dsimp only
    rw [htodo]
    refine ⟨rfl, hzone, hrest, boundary_zero _, fun b hb heq => .inr ?_, fun _ _ _ h => h ▸ rfl⟩
    exact heq ▸ (hlast b hb (Nat.le_of_eq heq.symm)).1

theorem Reused.lastOnly {chunk : Nat} {block : Block} {exhausted : Nat}
    (h : Reused s zone chunk block t) (hlast : LastOnly s.zones s.bucket exhausted)
    (hzone : zone < exhausted) : LastOnly (final s.zones t.todo) t.bucket exhausted := by
  intro b hb hle
  rcases h.mem b hb with rfl | ⟨hb, -⟩
  · rw [h.inZone] at hle
    omega
  · rw [h.other b.zone (by omega)]
    exact hlast b hb hle

theorem Inv.step_updating {i : Nat} (h : Inv s) (htodo : s.todo = [])
    (hphase : s.phase = .updating i) (hfits : Act.tick.Fits s) (hstep : s.next = some t) :
    Inv t := by
  have hcore := h.core
  have hempty := h.phase
  rw [htodo] at hcore
  rw [hphase] at hempty
  have hempty : s.bucket = [] := hempty
  have hstale := h.todo.stale (by rw [hphase]; exact fun h => by cases h)
  have hpos := h.nzones_pos (by rw [hphase]; exact fun h => by cases h)
  have hfits : s.HasRoom s.phase := hfits htodo
  rw [hphase] at hfits
  rw [State.next, hphase] at hstep
  dsimp only at hstep
  split at hstep
  · rename_i hlt
    split at hstep
    · cases hstep
      exact ⟨h.core, todoOk_of_nil (fun hphase => by cases hphase) hstale htodo, h.exhausted_le,
        fun _ => hpos, hempty⟩
    · rename_i hupdate
      rw [not_or] at hupdate
      obtain ⟨hinit, hne⟩ := hupdate
      have hcur := (hcore.sizeIdx i (.inl rfl)).resolve_left hinit
      obtain ⟨n, ms, hcalc, hlt', heq, hcore', -⟩ := hcore.zoneInit hstale hlt
        (fun hlast => hfits hlast hinit) fun n hcalc _ hmax =>
          Nat.lt_of_le_of_ne (hmax _ hcur) fun h => hne (h ▸ hcalc)
      rw [State.zoneInit_eq hcalc hlt', heq] at hstep
      cases hstep
      exact ⟨hcore', todoOk_of_map (fun hphase => by cases hphase) (fun hphase => by cases hphase)
        hstale rfl, h.exhausted_le, fun _ => hpos, hempty⟩
  · cases hstep
    refine ⟨h.core, todoOk_of_nil (fun hphase => by cases hphase) hstale htodo, h.exhausted_le,
      fun _ => hpos, ?_⟩
    intro b hb
    dsimp only at hb
    rw [hempty] at hb
    exact absurd hb List.not_mem_nil

theorem Inv.step_walking {i : Nat} (h : Inv s) (htodo : s.todo = [])
    (hphase : s.phase = .walking zone i) (hstep : s.next = some t) : Inv t := by
  have hcore := h.core
  have hwalk := h.phase
  rw [hphase, htodo] at hwalk
  obtain ⟨hexhausted, hzone, hlast, hwalking⟩ := hwalk
  have hstale := h.todo.stale (by rw [hphase]; exact fun h => by cases h)
  have hpos := h.nzones_pos (by rw [hphase]; exact fun h => by cases h)
  have hcore' := hcore
  rw [htodo] at hcore'
  have htidy := hcore'.tidy zone
  rw [State.next, hphase] at hstep
  dsimp only at hstep
  split at hstep
  · rename_i hlt
    have hblock : IsBlock (s.zones zone) i := ⟨hlt, hwalking.boundary⟩
    obtain ⟨-, hsize, -, -⟩ := hblock.chunk htidy.inv
    rw [if_neg (by omega), if_pos (htidy.free hblock)] at hstep
    cases hstep
    have hin : ∀ b ∈ s.bucket, IsBlock (s.zones b.zone) b.chunk ∧
        ((s.zones b.zone).hdr b.chunk).sizeIdx = b.size := hcore'.block
    have hsplit : ∀ b ∈ s.bucket, b.zone = zone →
        b.chunk + b.size ≤ i ∨ b.chunk + b.size = (s.zones zone).sizeIdx.cur := hwalking.split
    have hreused := hcore.reuse htodo hzone hblock fun b hb hz heq => by
      refine ⟨hwalking.fresh b hb hz heq, ?_⟩
      have hsize := (hin b hb).2
      rw [hz, heq] at hsize
      have := hsplit b hb hz
      omega
    obtain ⟨ms, hms⟩ := hreused.todo
    have hend := hreused.le
    refine ⟨hreused.core, todoOk_of_map (fun hphase => by cases hphase)
      (fun hphase => by cases hphase) hstale hms, h.exhausted_le, fun _ => hpos, hexhausted, hzone,
      hreused.lastOnly hlast (hexhausted ▸ Nat.lt_succ_self zone), ?_, fun b hb hz => ?_,
          fun b hb hz heq => ?_⟩
    · exact (hreused.joined.boundary _).mpr ⟨hreused.stop, .inr (Nat.le_refl _)⟩
    · rcases hreused.mem b hb with rfl | ⟨hb, -⟩
      · exact .inl (Nat.le_refl _)
      · refine (hsplit b hb hz).imp (fun hle => by omega) fun heq => ?_
        exact heq.trans (congrArg Cell.cur hreused.joined.sizeIdx).symm
    · exfalso
      rcases hreused.mem b hb with rfl | ⟨hb, -⟩
      · omega
      · have hb' := (hin b hb).1
        have hbpos := (hb'.chunk (hcore'.tidy b.zone).inv).2.1
        rw [(hin b hb).2] at hbpos
        rw [hz] at hb'
        have hge := (Boundary.chunk hblock.2 hb'.2 (by omega)).2.2.2
        have hlt' := hb'.1
        rcases hreused.last with hstop | ⟨b', hbmem, hz', hchunk, hstop⟩
        · have := hreused.next b hb hz (by omega)
          omega
        · have := hsplit b' hbmem hz'
          omega
  · cases hstep
    refine ⟨h.core, todoOk_of_nil (fun hphase => by cases hphase) hstale htodo, h.exhausted_le,
      fun _ => hpos, ?_⟩
    dsimp only
    rw [htodo]
    exact hlast

theorem Inv.step_grown (h : Inv s) (htodo : s.todo = []) (hphase : s.phase = .grown)
    (hfits : Act.tick.Fits s) (hstep : s.next = some t) : Inv t := by
  have hcore := h.core
  have hlast := h.phase
  have hgrowing := h.todo.growing hphase
  rw [htodo] at hcore hgrowing
  rw [hphase, htodo] at hlast
  have hlast : LastOnly s.zones s.bucket s.exhausted := hlast
  cases hgrowing with
  | done hstale hlarger =>
    have hfits : s.HasRoom s.phase := hfits htodo
    rw [hphase] at hfits
    have hsize := hcore.size s.sizep.cur (.inl rfl)
    have hle := heapMaxZone_mono hsize.2
    have hpos := heapMaxZone_pos hsize.1
    have hnpos := h.nzones_pos (by rw [hphase]; decide)
    rw [State.next, hphase] at hstep
    dsimp only at hstep
    obtain ⟨nzones, hnzones⟩ : ∃ n, heapMaxZone s.sizep.cur = n := ⟨_, rfl⟩
    obtain ⟨hzones, hroom⟩ := hfits
    rw [hnzones] at hzones hroom hle hpos hstep
    obtain ⟨zone, rfl⟩ : ∃ zone, nzones = zone + 1 := ⟨nzones - 1, by omega⟩
    rw [Nat.add_sub_cancel] at hroom hstep
    have hcore' : Core s.file s.sizep (zone + 1) s.zones [] s.bucket :=
      hcore.mono hcore.size (Nat.le_refl _) (fun v hv => ⟨v, hv, Nat.le_refl v⟩) hzones hle
        fun _ => rfl
    have hcalc := zoneCalcSizeIdx_last hnpos hzones hroom
    split at hstep
    · rename_i heq
      have hzone : zone < s.nzones := by omega
      have hcur : (s.zones zone).sizeIdx.cur <
          (s.sizep.cur - zone * zoneMaxSize - zoneHeadersSize) / chunkSize := by
        obtain ⟨hmin, -, -⟩ := hroom
        have hle : zone * zoneMaxSize + zoneHeadersSize + chunkSize ≤ s.sizep.cur := by
          rw [Nat.add_assoc]
          exact hmin
        refine (zoneEnd_le_iff (Nat.le_trans (Nat.le_add_right _ chunkSize) hle)).mp ?_
        have hpart : chunkSize ≤ pmemobjMinPart := by decide
        rcases hlarger zone heq.symm with hzero | hlarger
        · rw [hzero, zoneEnd, Nat.succ_mul, Nat.zero_mul, Nat.zero_add]
          exact hle
        · rw [zoneEnd, Nat.succ_mul, ← Nat.add_assoc]
          exact Nat.le_trans (Nat.add_le_add_left hpart _) hlarger
      obtain ⟨n, ms, hcalc', hlt, hinit, hcore'', hgrown⟩ := hcore.zoneInit hstale hzone
        (fun _ => hroom) fun n hn _ _ => by
          rw [hcalc, Option.some.injEq] at hn
          exact hn ▸ hcur
      rw [State.zoneInit_eq hcalc' hlt, hinit] at hstep
      cases hstep
      have hin : ∀ b ∈ s.bucket, IsBlock (s.zones b.zone) b.chunk ∧
          ((s.zones b.zone).hdr b.chunk).sizeIdx = b.size := hcore.block
      refine ⟨hcore'', todoOk_of_map (fun hphase => by cases hphase)
        (fun hphase => by cases hphase) hstale rfl, h.exhausted_le, fun _ => hnpos, hzone,
        hgrown.block, ?_, ?_, fun b hb hz => ?_, fun b hb hle => ?_⟩
      · rw [hgrown.sizeIdx, hgrown.size, Cell.cur_clean]
        omega
      · rw [hgrown.sizeIdx, hgrown.size, Cell.cur_clean, hgrown.footer]
      · obtain ⟨hblock, hsize⟩ := hin b hb
        rw [← hsize]
        have hz : b.zone = zone := hz
        rw [hz] at hblock ⊢
        exact (hblock.chunk (hcore.tidy zone).inv).2.2.2
      · have hlast := hlast b hb hle
        by_cases hz : b.zone = zone
        · have hlt' := (hin b hb).1.1
          rw [if_pos hz]
          rw [hz] at hlast hlt' ⊢
          exact ⟨hlast.1, (congrArg Header.sizeIdx (hgrown.frame _ (by omega))).trans hlast.2⟩
        · rw [if_neg hz]
          dsimp only
          rw [final_map, Function.update_of_ne hz]
          exact hlast
    · rename_i hne
      have hunused := (hcore.unused zone (by omega)).1
      have hzero : (s.zones zone).sizeIdx.cur = 0 := by rw [hunused, Cell.cur_clean]
      obtain ⟨n, ms, hcalc', hlt, hinit, hcore'', -⟩ := hcore'.zoneInit hstale
        (Nat.lt_succ_self zone) (fun _ => hroom) fun n _ hpos _ => hzero ▸ hpos
      rw [zoneCalcSizeIdx_last (Nat.succ_pos zone) (Nat.le_refl _) hroom] at hcalc'
      rw [hzero] at hlt hinit
      rw [State.zoneInit_eq (hcalc.trans hcalc') hlt, hinit] at hstep
      cases hstep
      have hnone := hcore.no_block hzero
      refine ⟨hcore'', todoOk_of_map (fun hphase => by cases hphase)
        (fun hphase => by cases hphase) hstale rfl, Nat.le_trans h.exhausted_le hzones,
        fun _ => Nat.succ_pos zone, ?_⟩
      dsimp only
      rw [final_map]
      exact hlast.update fun b hb _ => hnone b hb

theorem Inv.step_reusing {chunk : Nat} (h : Inv s) (htodo : s.todo = [])
    (hphase : s.phase = .reusing zone chunk) (hstep : s.next = some t) : Inv t := by
  have hcore := h.core
  have hreusing := h.phase
  rw [hphase, htodo] at hreusing
  obtain ⟨hzone, hreusing⟩ := hreusing
  have hstale := h.todo.stale (by rw [hphase]; exact fun h => by cases h)
  have hpos := h.nzones_pos (by rw [hphase]; exact fun h => by cases h)
  have hcore' := hcore
  rw [htodo] at hcore'
  have htidy := hcore'.tidy zone
  have hblock : IsBlock (s.zones zone) chunk := hreusing.block
  have hstop : chunk + ((s.zones zone).hdr chunk).sizeIdx = (s.zones zone).sizeIdx.cur :=
    hreusing.last
  have hfooter : ((s.zones zone).hdr ((s.zones zone).sizeIdx.cur - 1)).sizeIdx =
      ((s.zones zone).hdr chunk).sizeIdx := hreusing.footer
  have hin : ∀ b ∈ s.bucket, IsBlock (s.zones b.zone) b.chunk ∧
      ((s.zones b.zone).hdr b.chunk).sizeIdx = b.size := hcore'.block
  rw [State.next, hphase] at hstep
  cases hstep
  have hreused := hcore.reuse htodo hzone hblock fun b hb hz heq => by
    have hle := hreusing.before b hb hz
    have hbpos := ((hin b hb).1.chunk (hcore'.tidy b.zone).inv).2.1
    rw [(hin b hb).2] at hbpos
    omega
  obtain ⟨ms, hms⟩ := hreused.todo
  refine ⟨hreused.core, todoOk_of_map (fun hphase => by cases hphase)
    (fun hphase => by cases hphase) hstale hms, h.exhausted_le, fun _ => hpos,
    fun b hb hle => ?_⟩
  have hle : s.exhausted ≤ b.zone := hle
  have hlastOnly : ∀ b ∈ s.bucket, s.exhausted ≤ b.zone → b.Last (s.zones b.zone)
      (if b.zone = zone then chunk else (s.zones b.zone).sizeIdx.cur) := hreusing.lastOnly
  have hend := hreused.le
  have hsize := hreused.joined.sizeIdx
  suffices hgoal : b.Last (final s.zones (s.reuse zone chunk).2.todo b.zone)
      (final s.zones (s.reuse zone chunk).2.todo b.zone).sizeIdx.cur from hgoal
  rcases hreused.mem b hb with rfl | ⟨hb, hsep⟩
  · have hblockEnd : (s.reuse zone chunk).1.chunk + (s.reuse zone chunk).1.size =
        (s.zones zone).sizeIdx.cur := by
      rcases hreused.last with heq | ⟨b', hb', hz', hchunk, -⟩
      · omega
      · have hlt := (hin b' hb').1.1
        rw [hz'] at hlt
        omega
    rw [hreused.inZone, hsize]
    refine ⟨hblockEnd, ?_⟩
    rw [← hblockEnd]
    exact hreused.footer hblockEnd hfooter hstop
  · have hlast := hlastOnly b hb hle
    by_cases hz : b.zone = zone
    · rw [if_pos hz, hz] at hlast
      have := hreused.prev b hb hz hlast
      have := hsep hz
      omega
    · rw [if_neg hz] at hlast
      rw [hreused.other _ hz]
      exact hlast

theorem Inv.step_next (h : Inv s) (htodo : s.todo = []) (hfits : Act.tick.Fits s)
    (hstep : s.next = some t) : Inv t := by
  cases hphase : s.phase with
  | updating i => exact h.step_updating htodo hphase hfits hstep
  | walking zone i => exact h.step_walking htodo hphase hstep
  | grown => exact h.step_grown htodo hphase hfits hstep
  | reusing zone chunk => exact h.step_reusing htodo hphase hstep
  | down => rw [State.next, hphase] at hstep; cases hstep
  | idle => rw [State.next, hphase] at hstep; cases hstep
  | aborted => rw [State.next, hphase] at hstep; cases hstep

theorem step_inv {a : Act} (h : Inv s) (hissued : a.Issued s) (hfits : a.Fits s)
    (hstep : step a s = some t) : Inv t := by
  cases a with
  | boot => exact h.step_boot hstep
  | populate => exact h.step_populate hfits hstep
  | extend size => exact h.step_extend hissued hstep
  | tick =>
    rw [step] at hstep
    split at hstep
    · rename_i st todo htodo
      cases hstep
      exact h.exec htodo
    · rename_i htodo
      exact h.step_next htodo hfits hstep
  | crash images sizes sizep => exact h.step_crash hissued hstep

/-! ## Runs -/

/-- Whatever is done with the heap, and wherever a crash cuts it, its zones are well-formed and
inside of the mapped region, if there was room whenever the size of the last zone was calculated. -/
theorem good_run {size : Nat} {as : List Act} {s : State} (hsize : heapMinSize ≤ size)
    (hguard : Transition.Guarded step (fun a s => a.Issued s ∧ a.Fits s) as (init size))
    (hrun : Transition.run step as (init size) = some s) : s.Good :=
  (Transition.run_invariant (fun _ _ _ _ hinv hG hstep => step_inv hinv hG.1 hG.2 hstep) hguard
    (inv_init hsize) hrun).good

def extended : List Act :=
  [.boot, .tick, .tick, .populate] ++ List.replicate 7 .tick ++ [.extend (2 ^ 22)] ++
    List.replicate 12 .tick

theorem good_run_extended :
    ∃ s, Transition.run step extended (init (10 * 2 ^ 20 + 4096)) = some s ∧ s.Good := by
  obtain ⟨s, hrun⟩ := Option.isSome_iff_exists.mp (by decide +kernel :
      (Transition.run step extended (init (10 * 2 ^ 20 + 4096))).isSome)
  refine ⟨s, hrun, good_run (by decide) (Transition.Guarded.and (.of_forall_mem ?_ _) ?_) hrun⟩
  · intro a ha s
    have hsimple : a = .boot ∨ a = .tick ∨ a = .populate ∨ a = .extend (2 ^ 22) := by
      simp only [extended, List.mem_append, List.mem_replicate, List.mem_cons, List.not_mem_nil,
        or_false] at ha
      grind
    rcases hsimple with rfl | rfl | rfl | rfl
    · trivial
    · trivial
    · trivial
    · exact (by decide : 2 ^ 22 % 4096 = 0 ∧ pmemobjMinPart ≤ 2 ^ 22)
  · decide +kernel

def cutExtension : State :=
  { init (2 ^ 23) with
    file := 2 ^ 23 + 2 ^ 34
    nzones := 1
    phase := .grown
    todo := [.size (2 ^ 23 + 2 ^ 34), .persistSize] }

set_option maxRecDepth 100000 in
theorem run_cutExtension :
    Transition.run step [.boot, .tick, .tick, .extend (2 ^ 34), .tick] (init (2 ^ 23)) =
      some cutExtension := by
  rfl

def populated : List Act :=
  [.boot, .tick, .tick, .tick, .populate] ++ List.replicate 7 .tick ++ [.populate]

def interrupted : List Act :=
  .crash (fun _ _ => ⟨.unknown, 0, 0⟩) (fun _ => 0) (2 ^ 23) :: populated

/-- The second zone is there because the mapped region is larger, but its size is calculated from
the size before the extension, which ends in the first zone. -/
theorem not_good_interrupted :
    ¬ ∀ (size : Nat) (as : List Act) (s : State), heapMinSize ≤ size →
      Transition.Guarded step Act.Issued as (init size) →
      Transition.run step as (init size) = some s → s.Good := by
  intro hgood
  have hissued : ∀ a ∈ populated, ∀ s, a.Issued s := by
    intro a ha s
    have hsimple : a = .boot ∨ a = .tick ∨ a = .populate := by
      simp only [populated, List.mem_append, List.mem_replicate, List.mem_cons, List.not_mem_nil,
        or_false] at ha
      grind
    rcases hsimple with rfl | rfl | rfl <;> trivial
  have hguard : Transition.Guarded step Act.Issued
      ([.boot, .tick, .tick, .extend (2 ^ 34), .tick] ++ interrupted) (init (2 ^ 23)) := by
    refine Transition.Guarded.append (.of_forall_mem ?_ _) fun t ht => ?_
    · intro a ha s
      simp only [List.mem_cons, List.not_mem_nil, or_false] at ha
      rcases ha with rfl | rfl | rfl | rfl | rfl
      · trivial
      · trivial
      · trivial
      · exact (by decide : 2 ^ 34 % 4096 = 0 ∧ pmemobjMinPart ≤ 2 ^ 34)
      · trivial
    · rw [run_cutExtension, Option.some.injEq] at ht
      subst ht
      exact ⟨⟨fun id => ⟨fun i => .inl rfl, .inl rfl⟩, .inl rfl⟩, .of_forall_mem hissued _⟩
  have hphase : (Transition.run step
      ([.boot, .tick, .tick, .extend (2 ^ 34), .tick] ++ interrupted) (init (2 ^ 23))).map
        State.phase = some .aborted := by decide +kernel
  obtain ⟨s, hrun, habort⟩ := Option.map_eq_some_iff.mp hphase
  exact (hgood _ _ s (by decide) hguard hrun).alive habort

end Pmdk.Extend
