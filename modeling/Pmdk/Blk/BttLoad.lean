import Pmdk.Blk.BttArena

/-!
# Loading and recovery

`read_layout` of a namespace whose arenas are settled writes nothing; if one arena is pending, it
writes the missing map entry.
-/

namespace Pmdk.Btt

open Function List

variable {lbasize : Nat}

variable {nfree nlba : Nat}

def recovery (m : ArenaMedia lbasize) (a lane : Nat) : NsWrite lbasize :=
  .map a (current m lane).flog.lba (current m lane).flog.newMap

def loaded (nfree : Nat) (m : ArenaMedia lbasize) : Arena :=
  ⟨m.info.flags, m.info.externalNlba,
    fun lane => if lane < nfree then current m lane else .zeroed⟩

@[simp] theorem exec_map_arena (ns : Ns lbasize) (a : Nat) (i entry : UInt32) (a' : Nat) :
    (ns.exec (.map a i entry)).arena a' =
      if a' = a then (ns.arena a).setMap i entry else ns.arena a' := by
  simp [Ns.exec, Ns.modify, update_apply]

variable {m : ArenaMedia lbasize}

theorem readFlogPair_eq {lane : Nat} (hseq : SeqOk (m.flog lane))
    (hlba : ∀ e, (m.flog lane e).lba.toNat < nlba) (a : Nat) (flags : UInt32) :
    readFlogPair nlba m a flags lane = some ⟨flags, current m lane,
      if (current m lane).flog.oldMap = (current m lane).flog.newMap then []
      else if (current m lane).flog.newMap ≠ mapEntry m (current m lane).flog.lba ∧
        (current m lane).flog.oldMap = mapEntry m (current m lane).flog.lba then [recovery m a lane]
      else []⟩ := by
  unfold readFlogPair
  rw [if_neg (Nat.not_le.mpr (hlba false)), if_neg (Nat.not_le.mpr (hlba true)),
    flogGetValid_current hseq]
  rfl

theorem readFlogPair_of_ne {lane : Nat} (hseq : SeqOk (m.flog lane))
    (hlba : ∀ e, (m.flog lane e).lba.toNat < nlba)
    (hne : (current m lane).flog.oldMap ≠ (current m lane).flog.newMap →
      (current m lane).flog.oldMap ≠ mapEntry m (current m lane).flog.lba)
    (a : Nat) (flags : UInt32) :
    readFlogPair nlba m a flags lane = some ⟨flags, current m lane, []⟩ := by
  rw [readFlogPair_eq hseq hlba]
  by_cases heq : (current m lane).flog.oldMap = (current m lane).flog.newMap
  · rw [if_pos heq]
  · rw [if_neg heq, if_neg fun h => hne heq h.2]

variable {p : Nat}

theorem Pending.seq (h : Pending nfree nlba m p) :
    ∀ lane < nfree, SeqOk (m.flog lane) := h.settled.seq

theorem Pending.lba (h : Pending nfree nlba m p) :
    ∀ lane < nfree, ∀ e, (m.flog lane e).lba.toNat < nlba := h.settled.lba

theorem Pending.readFlogPair (h : Pending nfree nlba m p) (a : Nat) (flags : UInt32) :
    readFlogPair nlba m a flags p = some ⟨flags, current m p, [recovery m a p]⟩ := by
  have hnew : (current m p).flog.newMap ≠ mapEntry m (current m p).flog.lba := by
    rw [h.old]
    exact h.ne.symm
  rw [readFlogPair_eq (h.seq p h.lane_lt) (h.lba p h.lane_lt), if_neg h.ne,
    if_pos ⟨hnew, h.old.symm⟩]

def fill {α : Type} (f g : Nat → α) (i n : Nat) : Nat → α :=
  fun j => if i ≤ j ∧ j < i + n then f j else g j

theorem fill_zero {α : Type} (f g : Nat → α) (i : Nat) : fill f g i 0 = g := by
  funext j
  rw [fill, if_neg (by omega)]

theorem fill_update {α : Type} (f g : Nat → α) (i n : Nat) :
    fill f (update g i (f i)) (i + 1) n = fill f g i (n + 1) := by
  funext j
  unfold fill
  by_cases hj : j = i
  · rw [hj, if_neg (by omega), if_pos (by omega), update_self]
  · rw [update_of_ne hj]
    by_cases hin : i + 1 ≤ j ∧ j < i + 1 + n
    · rw [if_pos hin, if_pos (by omega)]
    · rw [if_neg hin, if_neg (by omega)]

variable {ns : Ns lbasize} {a : Nat}

theorem Settled.readFlogs (h : Settled nfree nlba (ns.arena a))
    (arena : Arena) {i n : Nat} (hn : i + n ≤ nfree) :
    readFlogs nlba a ns arena i n = some (⟨arena.flags, arena.externalNlba,
      fill (current (ns.arena a)) arena.flogs i n⟩, []) := by
  induction n generalizing arena i with
  | zero => rw [Btt.readFlogs, fill_zero]
  | succ n ih =>
    rw [Btt.readFlogs, readFlogPair_of_ne (h.seq i (by omega)) (h.lba i (by omega))
      (h.mapEntry_ne (by omega)), Option.bind_eq_bind, Option.bind_some]
    dsimp only
    rw [foldl_nil, ih _ (by omega), fill_update]
    rfl

theorem Pending.readFlogs
    (h : Pending nfree nlba (ns.arena a) p) (arena : Arena) {i n : Nat} (hn : i + n ≤ nfree)
    (hi : i ≤ p) (hp : p < i + n) :
    readFlogs nlba a ns arena i n = some (⟨arena.flags, arena.externalNlba,
      fill (current (ns.arena a)) arena.flogs i n⟩, [recovery (ns.arena a) a p]) := by
  induction n generalizing arena i with
  | zero => omega
  | succ n ih =>
    rw [Btt.readFlogs]
    by_cases hip : i = p
    · subst hip
      have harena : (ns.exec (recovery (ns.arena a) a i)).arena a =
          (ns.arena a).setMap (current (ns.arena a) i).flog.lba
            (current (ns.arena a) i).flog.newMap := by
        rw [recovery, exec_map_arena, if_pos rfl]
      have hsettled : Settled nfree nlba ((ns.exec (recovery (ns.arena a) a i)).arena a) := by
        rw [harena]
        exact h.settled
      rw [h.readFlogPair, Option.bind_eq_bind, Option.bind_some]
      dsimp only
      rw [foldl_cons, foldl_nil, hsettled.readFlogs _ (by omega), harena]
      exact congrArg (fun g => some ((⟨_, _, g⟩ : Arena), _))
        (fill_update (current (ns.arena a)) arena.flogs i n)
    · rw [readFlogPair_of_ne (h.seq i (by omega)) (h.lba i (by omega))
        (h.mapEntry_ne (by omega) hip), Option.bind_eq_bind, Option.bind_some]
      dsimp only
      rw [foldl_nil, ih _ (by omega) (by omega) (by omega), fill_update]
      rfl

theorem fill_lanes (m : ArenaMedia lbasize) (n : Nat) :
    fill (current m) (fun _ => .zeroed) 0 n =
      fun lane => if lane < n then current m lane else .zeroed := by
  funext lane
  simp [fill]

theorem Settled.readArena (h : Settled nfree nlba (ns.arena a)) :
    readArena nfree nlba ns a = some (loaded nfree (ns.arena a), []) := by
  rw [Btt.readArena, h.readFlogs _ (by omega), fill_lanes]
  rfl

theorem Pending.readArena (h : Pending nfree nlba (ns.arena a) p) :
    readArena nfree nlba ns a =
      some (loaded nfree (ns.arena a), [recovery (ns.arena a) a p]) := by
  have hp := h.lane_lt
  rw [Btt.readArena, h.readFlogs _ (by omega) (by omega) (by omega), fill_lanes]
  rfl

theorem readArenas_of_settled (arenas : Nat → Arena) {n : Nat}
    (h : ∀ k, a ≤ k → k < a + n → Settled nfree nlba (ns.arena k)) :
    readArenas nfree nlba ns arenas a n =
      some (fill (fun k => loaded nfree (ns.arena k)) arenas a n, []) := by
  induction n generalizing arenas a with
  | zero => rw [readArenas, fill_zero]
  | succ n ih =>
    have ha : Settled nfree nlba (ns.arena a) := h a (by omega) (by omega)
    rw [readArenas, ha.readArena, Option.bind_eq_bind, Option.bind_some]
    dsimp only
    rw [foldl_nil, ih _ fun k hk hk' => h k (by omega) (by omega),
      fill_update fun k => loaded nfree (ns.arena k)]
    rfl

theorem readArenas_of_pending (arenas : Nat → Arena) {n q : Nat}
    (hq : a ≤ q) (hq' : q < a + n) (hp : Pending nfree nlba (ns.arena q) p)
    (h : ∀ k, a ≤ k → k < a + n → k ≠ q → Settled nfree nlba (ns.arena k)) :
    readArenas nfree nlba ns arenas a n =
      some (fill (fun k => loaded nfree (ns.arena k)) arenas a n, [recovery (ns.arena q) q p]) := by
  induction n generalizing arenas a with
  | zero => omega
  | succ n ih =>
    rw [readArenas]
    by_cases haq : a = q
    · subst haq
      have harena : ∀ k, k ≠ a →
          (ns.exec (recovery (ns.arena a) a p)).arena k = ns.arena k := by
        intro k hk
        rw [recovery, exec_map_arena, if_neg hk]
      have hloaded : (fun k => loaded nfree ((ns.exec (recovery (ns.arena a) a p)).arena k)) =
          fun k => loaded nfree (ns.arena k) := by
        funext k
        rw [recovery, exec_map_arena]
        split
        · rename_i hk
          rw [hk]
          rfl
        · rfl
      rw [hp.readArena, Option.bind_eq_bind, Option.bind_some]
      dsimp only
      rw [foldl_cons, foldl_nil, readArenas_of_settled, hloaded,
        fill_update fun k => loaded nfree (ns.arena k)]
      · rfl
      · intro k hk hk'
        rw [harena k (by omega)]
        exact h k (by omega) (by omega) (by omega)
    · rw [(h a (by omega) (by omega) haq).readArena, Option.bind_eq_bind, Option.bind_some]
      dsimp only
      rw [foldl_nil, ih _ (by omega) (by omega) fun k hk hk' hne => h k (by omega) (by omega) hne,
        fill_update fun k => loaded nfree (ns.arena k)]
      rfl

end Pmdk.Btt
