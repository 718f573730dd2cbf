import Mathlib.Algebra.BigOperators.Group.List.Basic
import Mathlib.Algebra.Order.Ring.Nat
import Mathlib.Data.List.Nodup

/-!
# Extents that do not overlap

An extent is a range of cells. `owned es cs` lists the cells of the extents `es` and the single
cells `cs`; no cell is owned twice when this list has no duplicates.
-/

/-- The cells `start, …, start + len - 1`. -/
structure Extent where
  start : Nat
  len : Nat
  deriving DecidableEq

namespace Extent

open List

def cells (e : Extent) : List Nat := List.range' e.start e.len

variable {x : Nat}

theorem mem_cells {e : Extent} : x ∈ e.cells ↔ e.start ≤ x ∧ x < e.start + e.len :=
  List.mem_range'_1

theorem start_mem_cells {e : Extent} (h : 0 < e.len) : e.start ∈ e.cells :=
  mem_cells.mpr ⟨Nat.le_refl _, by omega⟩

theorem cells_eq_append {e : Extent} {n : Nat} (h : n ≤ e.len) :
    e.cells = (⟨e.start, e.len - n⟩ : Extent).cells ++
      (⟨e.start + (e.len - n), n⟩ : Extent).cells := by
  have hlen : e.len = e.len - n + n := by omega
  unfold cells
  dsimp only
  rw [List.range'_append_1, ← hlen]

def owned (es : List Extent) (cs : List Nat) : List Nat := es.flatMap cells ++ cs

theorem mem_owned {es : List Extent} {cs : List Nat} :
    x ∈ owned es cs ↔ (∃ e ∈ es, x ∈ e.cells) ∨ x ∈ cs := by
  rw [owned, mem_append, mem_flatMap]

theorem owned_perm {es es' : List Extent} (h : es.Perm es') (cs : List Nat) :
    (owned es cs).Perm (owned es' cs) :=
  (h.flatMap_right cells).append_right cs

theorem owned_cons (e : Extent) (es : List Extent) (cs : List Nat) :
    owned (e :: es) cs = e.cells ++ owned es cs := by
  rw [owned, owned, flatMap_cons, append_assoc]

theorem owned_split {e : Extent} {n : Nat} (h : n ≤ e.len) (es : List Extent) (cs : List Nat) :
    owned (e :: es) cs =
      owned (⟨e.start, e.len - n⟩ :: ⟨e.start + (e.len - n), n⟩ :: es) cs := by
  rw [owned_cons, owned_cons, owned_cons, cells_eq_append h, append_assoc]

theorem owned_single (x : Nat) (es : List Extent) (cs : List Nat) :
    (owned (⟨x, 1⟩ :: es) cs).Perm (owned es (x :: cs)) := by
  rw [owned_cons]
  show (x :: (es.flatMap cells ++ cs)).Perm (es.flatMap cells ++ x :: cs)
  exact perm_middle.symm

structure Separate (es : List Extent) (cs : List Nat) : Prop where
  nodup : (owned es cs).Nodup
  pos : ∀ e ∈ es, 0 < e.len

section Separate

variable {e e' : Extent} {es es' : List Extent} {cs : List Nat}

theorem Separate.perm (h : Separate es cs) (hes : es.Perm es') : Separate es' cs :=
  ⟨(owned_perm hes cs).nodup_iff.mp h.nodup, fun e he => h.pos e (hes.mem_iff.mpr he)⟩

theorem Separate.split (h : Separate (e :: es) cs) {n : Nat} (hn : 0 < n) (hlt : n < e.len) :
    Separate (⟨e.start, e.len - n⟩ :: ⟨e.start + (e.len - n), n⟩ :: es) cs := by
  refine ⟨owned_split (Nat.le_of_lt hlt) es cs ▸ h.nodup, fun e' he' => ?_⟩
  rcases mem_cons.mp he' with rfl | he'
  · exact Nat.sub_pos_of_lt hlt
  · rcases mem_cons.mp he' with rfl | he'
    · exact hn
    · exact h.pos e' (mem_cons_of_mem e he')

theorem Separate.single (h : Separate (⟨x, 1⟩ :: es) cs) : Separate es (x :: cs) :=
  ⟨(owned_single x es cs).nodup_iff.mp h.nodup, fun e he => h.pos e (mem_cons_of_mem _ he)⟩

theorem Separate.cons (h : Separate es cs) (he : 0 < e.len)
    (hnew : ∀ x ∈ e.cells, x ∉ owned es cs) : Separate (e :: es) cs := by
  refine ⟨?_, fun e' he' => ?_⟩
  · rw [owned_cons]
    exact List.Nodup.append List.nodup_range' h.nodup fun x hx hx' => hnew x hx hx'
  · rcases mem_cons.mp he' with rfl | he'
    · exact he
    · exact h.pos e' he'

theorem start_sublist (hpos : ∀ e ∈ es, 0 < e.len) :
    (es.map start ++ cs).Sublist (owned es cs) := by
  induction es with
  | nil => exact .refl _
  | cons e es ih =>
    have hcells : e.cells = e.start :: List.range' (e.start + 1) (e.len - 1) := by
      have hlen : e.len = e.len - 1 + 1 := by
        have := hpos e mem_cons_self
        omega
      rw [cells, hlen]
      rfl
    rw [owned_cons, hcells]
    exact ((ih fun e' he' => hpos e' (mem_cons_of_mem e he')).trans
      (sublist_append_right _ _)).cons_cons e.start

theorem Separate.nodup_start (h : Separate es cs) : (es.map start ++ cs).Nodup :=
  (start_sublist h.pos).nodup h.nodup

theorem Separate.start_subset (h : Separate es cs) : es.map start ++ cs ⊆ owned es cs :=
  (start_sublist h.pos).subset

theorem Separate.not_mem_single (h : Separate es cs) (he : e ∈ es) (hx : x ∈ e.cells) : x ∉ cs := by
  intro hmem
  exact disjoint_of_nodup_append h.nodup (mem_flatMap.mpr ⟨e, he, hx⟩) hmem

theorem Separate.not_mem_tail (h : Separate (e :: es) cs) (hx : x ∈ e.cells) : x ∉ owned es cs := by
  have hnodup := h.nodup
  rw [owned_cons] at hnodup
  exact fun hmem => disjoint_of_nodup_append hnodup hx hmem

theorem Separate.eq_of_mem (h : Separate es cs) (he : e ∈ es) (he' : e' ∈ es)
    (hx : x ∈ e.cells) (hx' : x ∈ e'.cells) : e = e' := by
  have hperm := perm_cons_erase he
  by_contra hne
  have hmem : e' ∈ es.erase e := (mem_erase_of_ne (Ne.symm hne)).mpr he'
  exact (h.perm hperm).not_mem_tail hx (mem_owned.mpr (.inl ⟨e', hmem, hx'⟩))

end Separate

end Extent

/-!
## Tilings by self-describing records

Records lie one after another in an array, and each of them tells its own length. `Tiles` follows
the lengths from one index to another: it lists them, every record met is valid, and the last one
ends exactly at the goal.
-/

namespace Tiling

variable {H : Type*} (valid : H → Prop) (len : H → Nat)

/-- The records from `i` on have the lengths `ns` and end at `stop`. -/
def Tiles (img : Nat → H) : Nat → List Nat → Nat → Prop
  | i, [], stop => i = stop
  | i, n :: ns, stop => valid (img i) ∧ len (img i) = n ∧ 0 < n ∧ Tiles img (i + n) ns stop

variable {valid len} {img img' : Nat → H} {i j stop : Nat} {ns ms : List Nat}

theorem Tiles.stop_eq (h : Tiles valid len img i ns stop) : stop = i + ns.sum := by
  induction ns generalizing i with
  | nil => simpa [Tiles] using h.symm
  | cons n ns ih =>
    rw [ih h.2.2.2, List.sum_cons, Nat.add_assoc]

theorem Tiles.le (h : Tiles valid len img i ns stop) : i ≤ stop := by
  rw [h.stop_eq]
  exact Nat.le_add_right i ns.sum

theorem tiles_append :
    Tiles valid len img i (ns ++ ms) stop ↔
      ∃ j, Tiles valid len img i ns j ∧ Tiles valid len img j ms stop := by
  induction ns generalizing i with
  | nil => simp [Tiles]
  | cons n ns ih =>
    rw [List.cons_append]
    simp only [Tiles, ih]
    constructor
    · rintro ⟨hvalid, hlen, hpos, j, hns, hms⟩
      exact ⟨j, ⟨hvalid, hlen, hpos, hns⟩, hms⟩
    · rintro ⟨j, ⟨hvalid, hlen, hpos, hns⟩, hms⟩
      exact ⟨hvalid, hlen, hpos, j, hns, hms⟩

theorem Tiles.congr (h : Tiles valid len img i ns stop)
    (heq : ∀ k, i ≤ k → k < stop → img' k = img k) : Tiles valid len img' i ns stop := by
  induction ns generalizing i with
  | nil => exact h
  | cons n ns ih =>
    obtain ⟨hvalid, hlen, hpos, hrest⟩ := h
    have hle := hrest.le
    rw [Tiles, heq i (Nat.le_refl i) (by omega)]
    exact ⟨hvalid, hlen, hpos, ih hrest fun k hk hk' => heq k (by omega) hk'⟩

/-- Following the lengths is deterministic: a shorter tiling is the beginning of a longer
one. -/
theorem Tiles.split (h : Tiles valid len img i ns j) (h' : Tiles valid len img i ms stop)
    (hle : j ≤ stop) : ∃ rest, ms = ns ++ rest ∧ Tiles valid len img j rest stop := by
  induction ns generalizing i ms with
  | nil =>
    obtain rfl : i = j := h
    exact ⟨ms, rfl, h'⟩
  | cons n ns ih =>
    obtain ⟨-, hlen, hpos, hrest⟩ := h
    cases ms with
    | nil =>
      obtain rfl : i = stop := h'
      have := hrest.le
      omega
    | cons m ms =>
      obtain ⟨-, hlen', -, hrest'⟩ := h'
      obtain rfl : m = n := hlen'.symm.trans hlen
      obtain ⟨rest, rfl, hrest⟩ := ih hrest hrest'
      exact ⟨rest, rfl, hrest⟩

end Tiling
