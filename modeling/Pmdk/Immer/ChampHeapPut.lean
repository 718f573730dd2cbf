import Pmdk.Immer.ChampHeapDelete

/-!
# Making hash tries in memory

In the memory the functions of `champ` that make nodes do what they do on tries: they return the
address of a node that denotes the result. The caller owns the reference to it.
-/

namespace Pmdk.Hamts

open RefCount Packed List

variable {T N N' : Type} {m m' : Mem T} {a d : Nat} {owned dying : List Nat} {i : Nat}

/-! ## Nodes that are alike -/

section Alike

variable {r : N → N' → Prop} {l : List N} {l' : List N'} {x : N} {y : N'}

section

variable (h : List.Forall₂ r l l')

include h

theorem forall₂_getElem? (hy : l'[i]? = some y) :
    ∃ x, l[i]? = some x ∧ r x y := by
  induction h generalizing i with
  | nil => simp at hy
  | cons hxy _ ih =>
    cases i with
    | zero => exact ⟨_, rfl, by simpa using (Option.some.inj hy) ▸ hxy⟩
    | succ i => simpa using ih (by simpa using hy)

theorem forall₂_getElem?' (hx : l[i]? = some x) :
    ∃ y, l'[i]? = some y ∧ r x y := by
  obtain ⟨hi, rfl⟩ := List.getElem?_eq_some_iff.mp hx
  have hi' := h.length_eq ▸ hi
  obtain ⟨x', hx', hr⟩ := forall₂_getElem? h (getElem?_eq_getElem hi')
  rw [hx, Option.some.injEq] at hx'
  exact ⟨_, getElem?_eq_getElem hi', hx' ▸ hr⟩

theorem forall₂_set (hxy : r x y) :
    List.Forall₂ r (l.set i x) (l'.set i y) := by
  induction h generalizing i with
  | nil => exact .nil
  | cons hab hrest ih =>
    cases i with
    | zero => exact .cons hxy hrest
    | succ i => exact .cons hab ih

theorem forall₂_eraseIdx :
    List.Forall₂ r (l.eraseIdx i) (l'.eraseIdx i) := by
  induction h generalizing i with
  | nil => exact .nil
  | cons hab hrest ih =>
    cases i with
    | zero => exact hrest
    | succ i => exact .cons hab ih

theorem forall₂_insertIdx (hxy : r x y) :
    List.Forall₂ r (l.insertIdx i x) (l'.insertIdx i y) := by
  induction i generalizing l l' with
  | zero => exact .cons hxy h
  | succ i ih =>
    cases h with
    | nil => exact .nil
    | cons hab hrest => exact .cons hab (ih hrest)

end

variable {node : Inner N T} {node' : Inner N' T}

section

variable (h : node.Alike r node')

include h

theorem Inner.Alike.copyInnerReplace (hxy : r x y) (offset : Nat) :
    (node.copyInnerReplace offset x).Alike r (node'.copyInnerReplace offset y) :=
  { h with children := forall₂_set h.children hxy }

theorem Inner.Alike.copyInnerReplaceValue (offset : Nat) (v : T) :
    (node.copyInnerReplaceValue offset v).Alike r (node'.copyInnerReplaceValue offset v) :=
  { h with values_eq := congrArg (·.set offset v) h.values_eq }

theorem Inner.Alike.copyInnerReplaceMerged (hxy : r x y) (bit : Bitmap)
    (voffset : Nat) : (node.copyInnerReplaceMerged bit voffset x).Alike r
      (node'.copyInnerReplaceMerged bit voffset y) where
  nodemap_eq := congrArg (· ||| bit) h.nodemap_eq
  datamap_eq := congrArg (· &&& ~~~bit) h.datamap_eq
  values_eq := congrArg (·.eraseIdx voffset) h.values_eq
  children := by
    rw [Inner.copyInnerReplaceMerged, h.nodemap_eq]
    exact forall₂_insertIdx h.children hxy

theorem Inner.Alike.copyInnerReplaceInline (bit : Bitmap)
    (noffset : Nat) (v : T) : (node.copyInnerReplaceInline bit noffset v).Alike r
      (node'.copyInnerReplaceInline bit noffset v) where
  nodemap_eq := congrArg (· &&& ~~~bit) h.nodemap_eq
  datamap_eq := congrArg (· ||| bit) h.datamap_eq
  values_eq := by
    rw [Inner.copyInnerReplaceInline, h.datamap_eq, h.values_eq]
    rfl
  children := forall₂_eraseIdx h.children

theorem Inner.Alike.copyInnerRemoveValue {bit : Bitmap} {voffset : Nat} {dst' : Inner N' T}
    (hdst : node'.copyInnerRemoveValue bit voffset = some dst') :
    ∃ dst, node.copyInnerRemoveValue bit voffset = some dst ∧ dst.children = node.children ∧
      dst.Alike r dst' := by
  rw [Inner.copyInnerRemoveValue, Option.ite_none_left_eq_some, Option.some.injEq] at hdst
  obtain ⟨hmany, rfl⟩ := hdst
  exact ⟨_, if_neg (h.datamap_eq ▸ hmany), rfl,
    { h with
      datamap_eq := congrArg (· &&& ~~~bit) h.datamap_eq
      values_eq := congrArg (·.eraseIdx voffset) h.values_eq }⟩

theorem Inner.Alike.copyInnerInsertValue (bit : Bitmap) (v : T) :
    (node.copyInnerInsertValue bit v).Alike r (node'.copyInnerInsertValue bit v) :=
  { h with
    datamap_eq := congrArg (· ||| bit) h.datamap_eq
    values_eq := by
      rw [Inner.copyInnerInsertValue, h.datamap_eq, h.values_eq]
      rfl }

theorem Inner.Alike.mono {r' : N → N' → Prop} (hr : ∀ x y, r x y → r' x y) : node.Alike r' node' :=
  { h with children := h.children.imp hr }

end

end Alike

namespace Mem

/-! ## Reading -/

theorem Inv.collisions_eq {values : List T} (h : m.Inv owned dying) (hpos : 0 < refs a m.heap)
    (hx : obj a m.heap = some (.collision values)) : m.collisions a = some values := by
  rw [collisions, h.read_eq hpos hx]
  rfl

theorem Inv.header_eq {node : Header} (h : m.Inv owned dying) (hpos : 0 < refs a m.heap)
    (hx : obj a m.heap = some (.inner node)) : m.header a = some node := by
  rw [header, h.read_eq hpos hx]
  rfl

theorem Inv.view_eq {node : Inner Nat T} (h : m.Inv owned dying) (hpos : 0 < refs a m.heap)
    (hv : m.Views a node) : m.view a = some node := by
  obtain ⟨p, hx, hp⟩ := hv
  rw [view, h.header_eq hpos hx, Option.bind_eq_bind, Option.bind_some]
  cases p with
  | none =>
    have hnil : node.values = [] := hp
    simp [valuesAt, ← hnil]
  | some p =>
    have hppos := h.counted.pos_of_out hpos hx (b := p) (by simp [Obj.out])
    have hread : m.valuesAt (some p) = some node.values := by
      rw [valuesAt, h.read_eq hppos hp]
      rfl
    simp [hread]

theorem Inv.pos_of_child {node : Inner Nat T} (h : m.Inv owned dying) (hpos : 0 < refs a m.heap)
    (hv : m.Views a node) {c : Nat} (hc : c ∈ node.children) : 0 < refs c m.heap := by
  obtain ⟨p, hx, -⟩ := hv
  exact h.counted.pos_of_out hpos hx (mem_append_left _ hc)

/-! ## Making nodes -/

theorem Inv.makeValues (h : m.Inv owned dying) (values : List T) :
    (m.makeValues values).2.Inv ((m.makeValues values).1.toList ++ owned) dying ∧
      m.Keeps (m.makeValues values).2 ∧
      (m.makeValues values).2.Contents (m.makeValues values).1 values := by
  cases values with
  | nil => exact ⟨h, .refl m, rfl⟩
  | cons v values => exact h.alloc

theorem Inv.makeInner {node : Inner Nat T} (h : m.Inv (node.children ++ owned) dying) :
    (m.makeInner node).2.Inv ((m.makeInner node).1 :: owned) dying ∧
      m.Keeps (m.makeInner node).2 ∧ (m.makeInner node).2.Views (m.makeInner node).1 node := by
  obtain ⟨h₁, hkeeps₁, hcontents⟩ := h.makeValues node.values
  have hperm : ((m.makeValues node.values).1.toList ++ (node.children ++ owned)).Perm
      ((Obj.inner ⟨node.nodemap, node.datamap, (m.makeValues node.values).1, node.children⟩ :
        Obj T).out ++ owned) := by
    rw [Obj.out, ← append_assoc]
    exact perm_append_comm.append_right owned
  obtain ⟨h₂, hkeeps₂, hobj⟩ := (h₁.perm hperm).alloc
  exact ⟨h₂, hkeeps₁.trans hkeeps₂, _, hobj, hcontents.mono hkeeps₂.extends_heap⟩

theorem Inv.incChildren {node : Inner Nat T} (h : m.Inv owned dying) (hpos : 0 < refs a m.heap)
    (hv : m.Views a node) :
    ∃ m', m.incNodes node.children = some m' ∧ m'.Inv (node.children ++ owned) dying ∧
      m.Keeps m' :=
  h.incNodes fun _ hc => h.pos_of_child hpos hv hc

theorem Inv.decChild {l : List Nat} {x : Obj T} {old : Nat} (h : m.Inv (l ++ owned) dying)
    (hpos : 0 < refs a m.heap) (hx : obj a m.heap = some x) (hout : ∀ c ∈ l, c ∈ x.out)
    (hold : l[i]? = some old) :
    ∃ m', m.decUnsafe old = some m' ∧ m'.Inv (l.eraseIdx i ++ owned) dying ∧ m.Keeps m' := by
  obtain ⟨hi, rfl⟩ := List.getElem?_eq_some_iff.mp hold
  have hmem : l[i] ∈ l := getElem_mem hi
  have hperm := (getElem_cons_eraseIdx_perm hi).symm.append_right owned
  exact (h.perm hperm).decUnsafe (h.counted.one_lt hpos hx (hout _ hmem) (mem_append_left _ hmem))

theorem Views.exists_obj {node : Inner Nat T} (hv : m.Views a node) :
    ∃ x, obj a m.heap = some x ∧ ∀ c ∈ node.children, c ∈ x.out := by
  obtain ⟨p, hx, -⟩ := hv
  exact ⟨_, hx, fun c hc => mem_append_left _ hc⟩

section Copy

variable {node : Inner Nat T}

theorem Inv.copyInnerReplace {child old : Nat} (h : m.Inv (child :: owned) dying)
    (hpos : 0 < refs a m.heap) (hv : m.Views a node) (hold : node.children[i]? = some old) :
    ∃ r, m.copyInnerReplace a i child = some r ∧ r.2.Inv (r.1 :: owned) dying ∧ m.Keeps r.2 ∧
      r.2.Views r.1 (node.copyInnerReplace i child) := by
  obtain ⟨p, hx, hp⟩ := id hv
  have hvalues : ∀ b ∈ p.toList, 0 < refs b m.heap := fun b hb =>
    h.counted.pos_of_out hpos hx (mem_append_right _ hb)
  obtain ⟨m₁, hinc₁, h₁, hkeeps₁⟩ := h.incNodes hvalues
  obtain ⟨m₂, hinc₂, h₂, hkeeps₂⟩ :=
    h₁.incChildren (hkeeps₁.live a hpos) (hv.mono hkeeps₁.extends_heap)
  have hkeeps := hkeeps₁.trans hkeeps₂
  obtain ⟨m₃, hdec, h₃, hkeeps₃⟩ := h₂.decChild (hkeeps.live a hpos)
    (hkeeps.extends_heap a _ hx) (fun c hc => mem_append_left _ hc) hold
  have hi := (List.getElem?_eq_some_iff.mp hold).1
  have hperm : (node.children.eraseIdx i ++ (p.toList ++ child :: owned)).Perm
      ((Obj.inner ⟨node.nodemap, node.datamap, p, node.children.set i child⟩ : Obj T).out ++
        owned) := by
    rw [Obj.out, ← append_assoc]
    refine perm_middle.trans ?_
    rw [← cons_append, ← cons_append]
    exact ((set_perm_cons_eraseIdx hi child).symm.append_right _).append_right owned
  obtain ⟨h₄, hkeeps₄, hobj⟩ := (h₃.perm hperm).alloc
  have hkeeps' := hkeeps₃.trans hkeeps₄
  refine ⟨_, ?_, h₄, hkeeps.trans hkeeps', p, hobj, (hp.mono hkeeps.extends_heap).mono
    hkeeps'.extends_heap⟩
  rw [Mem.copyInnerReplace, h.header_eq hpos hx, Option.bind_eq_bind, Option.bind_some, incValues,
    hinc₁, Option.bind_eq_bind, Option.bind_some, hinc₂, Option.bind_eq_bind, Option.bind_some,
    hold, Option.bind_some, hdec]
  rfl

theorem Inv.copyInner {new : List Nat} (h : m.Inv (new ++ owned) dying) (hpos : 0 < refs a m.heap)
    (hv : m.Views a node) (copy : Inner Nat T → Inner Nat T)
    (hchildren : (node.children ++ new).Perm (copy node).children) :
    ∃ r, (do
        let node ← m.view a
        let m ← m.incNodes node.children
        some (m.makeInner (copy node))) = some r ∧
      r.2.Inv (r.1 :: owned) dying ∧ m.Keeps r.2 ∧ r.2.Views r.1 (copy node) := by
  obtain ⟨m₁, hinc, h₁, hkeeps₁⟩ := h.incChildren hpos hv
  rw [← append_assoc] at h₁
  obtain ⟨h₂, hkeeps₂, hv₂⟩ := (h₁.perm (hchildren.append_right owned)).makeInner
  refine ⟨_, ?_, h₂, hkeeps₁.trans hkeeps₂, hv₂⟩
  rw [h.view_eq hpos hv, Option.bind_eq_bind, Option.bind_some, hinc]
  rfl

theorem Inv.copyInnerReplaceValue (h : m.Inv owned dying) (hpos : 0 < refs a m.heap)
    (hv : m.Views a node) (v : T) :
    ∃ r, m.copyInnerReplaceValue a i v = some r ∧ r.2.Inv (r.1 :: owned) dying ∧ m.Keeps r.2 ∧
      r.2.Views r.1 (node.copyInnerReplaceValue i v) :=
  @Inv.copyInner _ m a owned dying node [] h hpos hv (·.copyInnerReplaceValue i v)
      (by rw [append_nil]; rfl)

theorem Inv.copyInnerRemoveValue (h : m.Inv owned dying) (hpos : 0 < refs a m.heap)
    (hv : m.Views a node) {bit : Bitmap} {dst : Inner Nat T}
    (hdst : node.copyInnerRemoveValue bit i = some dst) (hchildren : dst.children = node.children) :
    ∃ r, m.copyInnerRemoveValue a bit i = some r ∧ r.2.Inv (r.1 :: owned) dying ∧ m.Keeps r.2 ∧
      r.2.Views r.1 dst := by
  obtain ⟨r, hr, hinv⟩ := @Inv.copyInner _ m a owned dying node [] h hpos hv (fun _ => dst)
    (by rw [append_nil, hchildren])
  refine ⟨r, ?_, hinv⟩
  rw [h.view_eq hpos hv] at hr
  rw [Mem.copyInnerRemoveValue, h.view_eq hpos hv, Option.bind_eq_bind, Option.bind_some, hdst]
  exact hr

theorem Inv.copyInnerInsertValue (h : m.Inv owned dying) (hpos : 0 < refs a m.heap)
    (hv : m.Views a node) (bit : Bitmap) (v : T) :
    ∃ r, m.copyInnerInsertValue a bit v = some r ∧ r.2.Inv (r.1 :: owned) dying ∧ m.Keeps r.2 ∧
      r.2.Views r.1 (node.copyInnerInsertValue bit v) :=
  @Inv.copyInner _ m a owned dying node [] h hpos hv (·.copyInnerInsertValue bit v)
    (by rw [append_nil]; rfl)

theorem Inv.copyInnerReplaceMerged {child : Nat} (h : m.Inv (child :: owned) dying)
    (hpos : 0 < refs a m.heap) (hv : m.Views a node) {bit : Bitmap}
    (hle : offset node.nodemap bit ≤ node.children.length) :
    ∃ r, m.copyInnerReplaceMerged a bit i child = some r ∧ r.2.Inv (r.1 :: owned) dying ∧
      m.Keeps r.2 ∧ r.2.Views r.1 (node.copyInnerReplaceMerged bit i child) :=
  @Inv.copyInner _ m a owned dying node [child] h hpos hv (·.copyInnerReplaceMerged bit i child)
    (perm_append_comm.trans (perm_insertIdx child node.children hle).symm)

theorem Inv.copyInnerReplaceInline {old : Nat} (h : m.Inv owned dying) (hpos : 0 < refs a m.heap)
    (hv : m.Views a node) (bit : Bitmap) (v : T) (hold : node.children[i]? = some old) :
    ∃ r, m.copyInnerReplaceInline a bit i v = some r ∧ r.2.Inv (r.1 :: owned) dying ∧
      m.Keeps r.2 ∧ r.2.Views r.1 (node.copyInnerReplaceInline bit i v) := by
  obtain ⟨x, hx, hout⟩ := hv.exists_obj
  obtain ⟨m₁, hinc, h₁, hkeeps₁⟩ := h.incChildren hpos hv
  obtain ⟨m₂, hdec, h₂, hkeeps₂⟩ := h₁.decChild (hkeeps₁.live a hpos)
    (hkeeps₁.extends_heap a _ hx) hout hold
  obtain ⟨h₃, hkeeps₃, hv₃⟩ :=
    @Inv.makeInner _ m₂ owned dying (node.copyInnerReplaceInline bit i v) h₂
  refine ⟨_, ?_, h₃, (hkeeps₁.trans hkeeps₂).trans hkeeps₃, hv₃⟩
  rw [Mem.copyInnerReplaceInline, h.view_eq hpos hv, Option.bind_eq_bind, Option.bind_some, hinc,
    Option.bind_eq_bind, Option.bind_some, hold, Option.bind_eq_bind, Option.bind_some, hdec]
  rfl

end Copy

/-! ## Two keys -/

theorem makeMerged_denotes {B shift : Nat} {v1 v2 : T} {hash1 hash2 : Hash}
    (h : m.Inv owned dying) :
    (makeMerged B d shift v1 hash1 v2 hash2 m).2.Denotes d
        (makeMerged B d shift v1 hash1 v2 hash2 m).1
        (Hamts.makeMerged B d shift v1 hash1 v2 hash2) ∧
      (makeMerged B d shift v1 hash1 v2 hash2 m).2.Inv
        ((makeMerged B d shift v1 hash1 v2 hash2 m).1 :: owned) dying ∧
      m.Keeps (makeMerged B d shift v1 hash1 v2 hash2 m).2 := by
  induction d generalizing shift with
  | zero =>
    obtain ⟨h₁, hkeeps, hobj⟩ := @Inv.alloc _ m (.collision [v1, v2]) owned dying h
    exact ⟨hobj, h₁, hkeeps⟩
  | succ d ih =>
    rw [makeMerged, Hamts.makeMerged]
    split
    · obtain ⟨hdenotes, h₁, hkeeps₁⟩ := @ih (shift + B)
      obtain ⟨h₂, hkeeps₂, hv⟩ := @Inv.makeInner _ _ owned dying
        ⟨bit 32 (index B hash1 shift), 0, [], [_]⟩ h₁
      exact ⟨⟨_, hv, rfl, rfl, rfl, .cons (hdenotes.mono hkeeps₂.extends_heap) .nil⟩, h₂,
        hkeeps₁.trans hkeeps₂⟩
    · obtain ⟨h₂, hkeeps₂, hv⟩ := @Inv.makeInner _ m owned dying
        ⟨0, bit 32 (index B hash1 shift) ||| bit 32 (index B hash2 shift),
          if index B hash1 shift < index B hash2 shift then [v1, v2] else [v2, v1], []⟩ h
      exact ⟨⟨_, hv, rfl, rfl, rfl, .nil⟩, h₂, hkeeps₂⟩

theorem Inv.makeCollisionN {B : Nat} {values : List T} {n : Node T} (h : m.Inv owned dying)
    (hn : Hamts.makeCollisionN B values = some n) :
    ∃ r, m.makeCollisionN B values = some r ∧ r.2.Denotes 0 r.1 n ∧
      r.2.Inv (r.1 :: owned) dying ∧ m.Keeps r.2 := by
  rw [Hamts.makeCollisionN, Option.ite_none_right_eq_some] at hn
  obtain ⟨hle, hn⟩ := hn
  obtain ⟨h₁, hkeeps, hobj⟩ := @Inv.alloc _ m (.collision values) owned dying h
  refine ⟨_, by rw [Mem.makeCollisionN, if_pos hle], ?_, h₁, hkeeps⟩
  rw [← Option.some.inj hn]
  exact hobj

theorem offset_le {node : Inner N T} (hshaped : node.Shaped) (hi : i < 32) :
    offset node.nodemap (bit 32 i) ≤ node.children.length := by
  rw [offset_bit _ hi, hshaped.children_length, popcount_eq_rank]
  exact rank_mono _ hi.le

/-! ## Adding and updating -/

section Put

variable {K V : Type} [DecidableEq K] {B shift : Nat} {hashOf : K → Hash} {m : Mem (K × V)}

theorem doPut_denotes (hB : B ≤ 5) {k : K} {combine : Option V → V} {n : Node (K × V)}
    {res : Node (K × V) × Bool} (hshift : shift + d * B = maxShift B) (hwf : WF B hashOf d shift n)
    (hn : m.Denotes d a n) (h : m.Inv owned dying) (hpos : 0 < refs a m.heap)
    (hput : Hamts.doPut B hashOf k combine d shift n = some res) :
    ∃ r : Nat × Mem (K × V), doPut B hashOf k combine d shift a m = some (r.1, res.2, r.2) ∧
      r.2.Denotes d r.1 res.1 ∧ r.2.Inv (r.1 :: owned) dying ∧ m.Keeps r.2 := by
  induction d generalizing shift n a res with
  | zero =>
    cases n with
    | inner node => exact hn.elim
    | collision values =>
      simp only [Hamts.doPut] at hput
      simp only [doPut, h.collisions_eq hpos hn, Option.bind_eq_bind, Option.bind_some]
      cases hfind : values.findIdx? fun x => x.1 = k with
      | some p =>
        simp only [hfind, Option.bind_eq_bind, Option.bind_eq_some_iff, Option.some.injEq] at hput
        obtain ⟨old, hold, c, hc, rfl⟩ := hput
        obtain ⟨r, hr, hdenotes, h', hkeeps⟩ := h.makeCollisionN hc
        refine ⟨r, ?_, hdenotes, h', hkeeps⟩
        simp [hold, hr]
      | none =>
        simp only [hfind, Option.bind_eq_bind, Option.bind_eq_some_iff, Option.some.injEq] at hput
        obtain ⟨c, hc, rfl⟩ := hput
        obtain ⟨r, hr, hdenotes, h', hkeeps⟩ := h.makeCollisionN hc
        refine ⟨r, ?_, hdenotes, h', hkeeps⟩
        simp [hr]
  | succ d ih =>
    cases n with
    | collision values => exact hn.elim
    | inner node =>
      obtain ⟨node', hv, halike⟩ := hn
      have hlt := shift_lt hshift
      have hw := index_lt hB (hashOf k) hlt
      have hnext : shift + B + d * B = maxShift B := by rw [← hshift, Nat.succ_mul]; omega
      simp only [Hamts.doPut] at hput
      simp only [doPut, h.view_eq hpos hv, Option.bind_eq_bind, Option.bind_some,
        halike.nodemap_eq, halike.datamap_eq, halike.values_eq]
      by_cases hnode : node.nodemap &&& bit 32 (index B (hashOf k) shift) ≠ 0
      · rw [if_pos hnode] at hput ⊢
        simp only [Option.bind_eq_bind, Option.bind_eq_some_iff, Option.some.injEq] at hput
        obtain ⟨c, hc, res', hput', rfl⟩ := hput
        obtain ⟨c', hc', hcn⟩ := forall₂_getElem? halike.children hc
        have hslot : At node.nodemap node.children (index B (hashOf k) shift) c :=
          ⟨(and_bit_ne_zero_iff hw).mp hnode, by rwa [offset_bit _ hw] at hc⟩
        obtain ⟨r₁, hr₁, hdenotes₁, h₁, hkeeps₁⟩ := ih hnext (hwf.child hslot) hcn
          (h.pos_of_child hpos hv (mem_of_getElem? hc')) hput'
        obtain ⟨r₂, hr₂, h₂, hkeeps₂, hv₂⟩ := h₁.copyInnerReplace (hkeeps₁.live a hpos)
          (hv.mono hkeeps₁.extends_heap) hc'
        have hkeeps := hkeeps₁.trans hkeeps₂
        refine ⟨r₂, ?_, ⟨_, hv₂, ?_⟩, h₂, hkeeps⟩
        · simp [hc', hr₁, hr₂]
        · exact (halike.mono fun _ _ hx => hx.mono hkeeps.extends_heap).copyInnerReplace
            (hdenotes₁.mono hkeeps₂.extends_heap) _
      · rw [if_neg hnode] at hput ⊢
        by_cases hdata : node.datamap &&& bit 32 (index B (hashOf k) shift) ≠ 0
        · rw [if_pos hdata] at hput ⊢
          simp only [Option.bind_eq_bind, Option.bind_eq_some_iff] at hput
          obtain ⟨val, hval, hput⟩ := hput
          simp only [hval, Option.bind_some]
          by_cases hk : val.1 = k
          · rw [if_pos hk, Option.some.injEq] at hput
            rw [if_pos hk, ← hput]
            obtain ⟨r, hr, h', hkeeps, hv'⟩ := h.copyInnerReplaceValue hpos hv
              (i := offset node.datamap (bit 32 (index B (hashOf k) shift)))
              (k, combine (some val.2))
            refine ⟨r, by simp [hr], ⟨_, hv', ?_⟩, h', hkeeps⟩
            exact (halike.mono fun _ _ hx => hx.mono hkeeps.extends_heap).copyInnerReplaceValue
              _ _
          · rw [if_neg hk, Option.some.injEq] at hput
            rw [if_neg hk, ← hput]
            obtain ⟨hdenotes₁, h₁, hkeeps₁⟩ := @makeMerged_denotes _ m d owned dying B
              (shift + B) (k, combine none) val (hashOf k) (hashOf val.1) h
            have hle : offset node'.nodemap (bit 32 (index B (hashOf k) shift)) ≤
                node'.children.length := by
              rw [halike.nodemap_eq, halike.children.length_eq]
              exact offset_le hwf.shaped hw
            obtain ⟨r, hr, h₂, hkeeps₂, hv₂⟩ := h₁.copyInnerReplaceMerged
              (i := offset node.datamap (bit 32 (index B (hashOf k) shift)))
              (hkeeps₁.live a hpos) (hv.mono hkeeps₁.extends_heap) hle
            have hkeeps := hkeeps₁.trans hkeeps₂
            refine ⟨r, by simp [hr], ⟨_, hv₂, ?_⟩, h₂, hkeeps⟩
            exact (halike.mono fun _ _ hx => hx.mono hkeeps.extends_heap).copyInnerReplaceMerged
              (hdenotes₁.mono hkeeps₂.extends_heap) _ _
        · rw [if_neg hdata, Option.some.injEq] at hput
          rw [if_neg hdata, ← hput]
          obtain ⟨r, hr, h', hkeeps, hv'⟩ := h.copyInnerInsertValue hpos hv
            (bit 32 (index B (hashOf k) shift)) (k, combine none)
          refine ⟨r, by simp [hr], ⟨_, hv', ?_⟩, h', hkeeps⟩
          exact (halike.mono fun _ _ hx => hx.mono hkeeps.extends_heap).copyInnerInsertValue
            _ _

end Put

/-! ## Removing -/

/-- The result of `do_sub` in the memory denotes the one on the trie. -/
def SubDenotes (m : Mem T) (owned dying : List Nat) (d : Nat) :
    SubResult T → Hamts.SubResult T → Prop
  | .nothing, .nothing => True
  | .singleton x, .singleton y => x = y
  | .tree a m', .tree n => m'.Denotes d a n ∧ m'.Inv (a :: owned) dying ∧ m.Keeps m'
  | _, _ => False

def IsEmpty (m : Mem T) (a : Nat) : Prop := obj a m.heap = some (.inner ⟨0, 0, none, []⟩)

theorem IsEmpty.denotes (h : m.IsEmpty a) : m.Denotes (d + 1) a (.inner .empty) :=
  ⟨.empty, ⟨none, h, rfl⟩, rfl, rfl, rfl, .nil⟩

section Sub

variable {K V : Type} [DecidableEq K] {B shift : Nat} {hashOf : K → Hash} {m : Mem (K × V)}

theorem doSub_collision_denotes {k : K} {empty : Nat} {values : List (K × V)}
    {res : Hamts.SubResult (K × V)} (hn : obj a m.heap = some (.collision values))
    (h : m.Inv owned dying) (hpos : 0 < refs a m.heap)
    (hsub : Hamts.doSub B hashOf k 0 shift (.collision values) = some res) :
    ∃ r, doSub B hashOf k empty 0 shift a m = some r ∧ m.SubDenotes owned dying 0 r res := by
  simp only [Hamts.doSub] at hsub
  simp only [doSub, h.collisions_eq hpos hn, Option.bind_eq_bind, Option.bind_some]
  cases hfind : values.findIdx? fun x => x.1 = k with
  | none =>
    simp only [hfind, Option.some.injEq] at hsub
    exact ⟨_, rfl, by rw [← hsub]; trivial⟩
  | some cur =>
    simp only [hfind] at hsub ⊢
    by_cases hmany : values.length > 2
    · rw [if_pos hmany] at hsub ⊢
      simp only [Option.bind_eq_bind, Option.bind_eq_some_iff, Option.some.injEq] at hsub
      obtain ⟨c, hc, rfl⟩ := hsub
      obtain ⟨r, hr, hdenotes, h', hkeeps⟩ := h.makeCollisionN hc
      exact ⟨ofTree r, by rw [hr]; rfl, hdenotes, h', hkeeps⟩
    · rw [if_neg hmany] at hsub ⊢
      simp only [Option.bind_eq_bind, Option.bind_eq_some_iff, Option.some.injEq] at hsub ⊢
      obtain ⟨x, hx, rfl⟩ := hsub
      exact ⟨_, ⟨x, hx, rfl⟩, rfl⟩

omit [DecidableEq K] in
theorem doSub_child_denotes {node' : Inner Nat (K × V)} {node : Inner (Node (K × V)) (K × V)}
    {bit : Bitmap} {i c : Nat} {r₁ : SubResult (K × V)} {res' res : Hamts.SubResult (K × V)}
    (hv : m.Views a node') (halike : node'.Alike (m.Denotes d) node) (h : m.Inv owned dying)
    (hpos : 0 < refs a m.heap) (hc : node'.children[i]? = some c)
    (hres : (match res' with
      | .nothing => some .nothing
      | .singleton x =>
        if node.datamap = 0 ∧ popcount node.nodemap = 1 ∧ shift > 0 then some (.singleton x)
        else some (.tree (.inner (node.copyInnerReplaceInline bit i x)))
      | .tree t => some (.tree (.inner (node.copyInnerReplace i t)))) = some res) :
    m.SubDenotes owned dying d r₁ res' → ∃ r : SubResult (K × V), (match r₁ with
      | .nothing => some .nothing
      | .singleton x =>
        if node.datamap = 0 ∧ popcount node.nodemap = 1 ∧ shift > 0 then some (.singleton x)
        else (m.copyInnerReplaceInline a bit i x).map ofTree
      | .tree t m => (m.copyInnerReplace a i t).map ofTree) = some r ∧
        m.SubDenotes owned dying (d + 1) r res := by
  intro hdenotes
  cases res' with
  | nothing =>
    cases r₁ with
    | nothing =>
      simp only [Option.some.injEq] at hres
      exact ⟨_, rfl, by rw [← hres]; trivial⟩
    | singleton x => exact hdenotes.elim
    | tree t m₁ => exact hdenotes.elim
  | singleton y =>
    cases r₁ with
    | nothing => exact hdenotes.elim
    | tree t m₁ => exact hdenotes.elim
    | singleton x =>
      obtain rfl : x = y := hdenotes
      by_cases honly : node.datamap = 0 ∧ popcount node.nodemap = 1 ∧ shift > 0
      · simp only [if_pos honly, Option.some.injEq] at hres ⊢
        exact ⟨_, rfl, by rw [← hres]; rfl⟩
      · simp only [if_neg honly, Option.some.injEq] at hres ⊢
        obtain ⟨r, hr, h', hkeeps, hv'⟩ := h.copyInnerReplaceInline hpos hv bit x hc
        refine ⟨ofTree r, by rw [hr]; rfl, ?_⟩
        rw [← hres]
        exact ⟨⟨_, hv', (halike.mono fun _ _ hx => hx.mono
          hkeeps.extends_heap).copyInnerReplaceInline _ _ _⟩, h', hkeeps⟩
  | tree t =>
    cases r₁ with
    | nothing => exact hdenotes.elim
    | singleton x => exact hdenotes.elim
    | tree t' m₁ =>
      simp only [Option.some.injEq] at hres ⊢
      obtain ⟨hdenotes, h₁, hkeeps₁⟩ := hdenotes
      obtain ⟨r, hr, h₂, hkeeps₂, hv₂⟩ := h₁.copyInnerReplace
        (hkeeps₁.live a hpos) (hv.mono hkeeps₁.extends_heap) hc
      have hkeeps := hkeeps₁.trans hkeeps₂
      refine ⟨ofTree r, by rw [hr]; rfl, ?_⟩
      rw [← hres]
      exact ⟨⟨_, hv₂, (halike.mono fun _ _ hx => hx.mono
        hkeeps.extends_heap).copyInnerReplace (hdenotes.mono hkeeps₂.extends_heap) _⟩, h₂,
        hkeeps⟩

omit [DecidableEq K] in
theorem doSub_value_denotes {node' : Inner Nat (K × V)} {node : Inner (Node (K × V)) (K × V)}
    {bit : Bitmap} {i empty : Nat} {res : Hamts.SubResult (K × V)} (hv : m.Views a node')
    (halike : node'.Alike (m.Denotes d) node) (h : m.Inv owned dying) (hpos : 0 < refs a m.heap)
    (hempty : m.IsEmpty empty) (hlive : 0 < refs empty m.heap)
    (hsub : (if node.nodemap ≠ 0 ∨ popcount node.datamap > 2 then
        (node.copyInnerRemoveValue bit i).bind fun dst => some (.tree (.inner dst))
      else if popcount node.datamap = 2 then
        (node.values[other i]?).bind fun x =>
          if shift > 0 then some (.singleton x)
          else some (.tree (.inner ⟨0, node.datamap &&& ~~~bit, [x], []⟩))
      else if shift = 0 then some (.tree (.inner .empty))
      else none) = some res) :
    ∃ r, (if node.nodemap ≠ 0 ∨ popcount node.datamap > 2 then
        (m.copyInnerRemoveValue a bit i).map ofTree
      else if popcount node.datamap = 2 then
        (node.values[other i]?).bind fun x =>
          if shift > 0 then some (.singleton x)
          else some (ofTree (m.makeInner ⟨0, node.datamap &&& ~~~bit, [x], []⟩))
      else if shift = 0 then (m.inc empty).map (.tree empty)
      else none) = some r ∧ m.SubDenotes owned dying (d + 1) r res := by
  by_cases hmore : node.nodemap ≠ 0 ∨ popcount node.datamap > 2
  · rw [if_pos hmore] at hsub ⊢
    obtain ⟨dst', hdst', hsub⟩ := Option.bind_eq_some_iff.mp hsub
    obtain ⟨dst, hdst, hchildren, halike'⟩ := halike.copyInnerRemoveValue hdst'
    obtain ⟨r, hr, h', hkeeps, hv'⟩ := h.copyInnerRemoveValue hpos hv hdst hchildren
    refine ⟨ofTree r, by rw [hr]; rfl, ?_⟩
    rw [← Option.some.inj hsub]
    exact ⟨⟨_, hv', halike'.mono fun _ _ hx => hx.mono hkeeps.extends_heap⟩, h', hkeeps⟩
  · rw [if_neg hmore] at hsub ⊢
    by_cases hpair : popcount node.datamap = 2
    · rw [if_pos hpair] at hsub ⊢
      obtain ⟨x, hx, hsub⟩ := Option.bind_eq_some_iff.mp hsub
      rw [hx, Option.bind_some]
      by_cases hshift : shift > 0
      · rw [if_pos hshift, Option.some.injEq] at hsub
        rw [if_pos hshift]
        exact ⟨_, rfl, by rw [← hsub]; rfl⟩
      · rw [if_neg hshift, Option.some.injEq] at hsub
        rw [if_neg hshift]
        obtain ⟨h', hkeeps, hv'⟩ :=
          @Inv.makeInner _ m owned dying ⟨0, node.datamap &&& ~~~bit, [x], []⟩ h
        refine ⟨_, rfl, ?_⟩
        rw [← hsub]
        exact ⟨⟨_, hv', rfl, rfl, rfl, .nil⟩, h', hkeeps⟩
    · rw [if_neg hpair] at hsub ⊢
      by_cases hshift : shift = 0
      · rw [if_pos hshift, Option.some.injEq] at hsub
        rw [if_pos hshift]
        obtain ⟨m', hinc, h', hkeeps⟩ := h.inc hlive
        refine ⟨_, by rw [hinc]; rfl, ?_⟩
        rw [← hsub]
        exact ⟨(IsEmpty.denotes (hempty : m.IsEmpty empty)).mono hkeeps.extends_heap, h', hkeeps⟩
      · rw [if_neg hshift] at hsub
        cases hsub

theorem doSub_denotes (hB : B ≤ 5) {k : K} {empty : Nat} {n : Node (K × V)}
    {res : Hamts.SubResult (K × V)} (hshift : shift + d * B = maxShift B)
    (hwf : WF B hashOf d shift n) (hn : m.Denotes d a n) (h : m.Inv owned dying)
    (hpos : 0 < refs a m.heap) (hempty : m.IsEmpty empty) (hlive : 0 < refs empty m.heap)
    (hsub : Hamts.doSub B hashOf k d shift n = some res) :
    ∃ r, doSub B hashOf k empty d shift a m = some r ∧ m.SubDenotes owned dying d r res := by
  induction d generalizing shift n a res with
  | zero =>
    cases n with
    | inner node => exact hn.elim
    | collision values => exact doSub_collision_denotes hn h hpos hsub
  | succ d ih =>
    cases n with
    | collision values => exact hn.elim
    | inner node =>
      obtain ⟨node', hv, halike⟩ := hn
      have hlt := shift_lt hshift
      have hw := index_lt hB (hashOf k) hlt
      have hnext : shift + B + d * B = maxShift B := by rw [← hshift, Nat.succ_mul]; omega
      simp only [Hamts.doSub] at hsub
      simp only [doSub, h.view_eq hpos hv, Option.bind_eq_bind, Option.bind_some,
        halike.nodemap_eq, halike.datamap_eq, halike.values_eq]
      by_cases hnode : node.nodemap &&& bit 32 (index B (hashOf k) shift) ≠ 0
      · rw [if_pos hnode] at hsub ⊢
        simp only [Option.bind_eq_bind, Option.bind_eq_some_iff] at hsub
        obtain ⟨c, hc, res', hsub', hres⟩ := hsub
        obtain ⟨c', hc', hcn⟩ := forall₂_getElem? halike.children hc
        have hslot : At node.nodemap node.children (index B (hashOf k) shift) c :=
          ⟨(and_bit_ne_zero_iff hw).mp hnode, by rwa [offset_bit _ hw] at hc⟩
        obtain ⟨r₁, hr₁, hdenotes₁⟩ := ih hnext (hwf.child hslot) hcn
          (h.pos_of_child hpos hv (mem_of_getElem? hc')) hsub'
        simp only [hc', hr₁, Option.bind_some]
        exact doSub_child_denotes hv halike h hpos hc' hres hdenotes₁
      · rw [if_neg hnode] at hsub ⊢
        by_cases hdata : node.datamap &&& bit 32 (index B (hashOf k) shift) ≠ 0
        · rw [if_pos hdata] at hsub ⊢
          simp only [Option.bind_eq_bind, Option.bind_eq_some_iff] at hsub
          obtain ⟨val, hval, hsub⟩ := hsub
          simp only [hval, Option.bind_some]
          by_cases hk : val.1 = k
          · rw [if_pos hk] at hsub ⊢
            exact doSub_value_denotes hv halike h hpos hempty hlive hsub
          · rw [if_neg hk, Option.some.injEq] at hsub
            rw [if_neg hk]
            exact ⟨_, rfl, by rw [← hsub]; trivial⟩
        · rw [if_neg hdata, Option.some.injEq] at hsub
          rw [if_neg hdata]
          exact ⟨_, rfl, by rw [← hsub]; trivial⟩

/-- Where `do_sub` faults on the trie, it faults in the memory. -/
theorem doSub_eq_none (hB : B ≤ 5) {k : K} {empty : Nat} {n : Node (K × V)}
    (hshift : shift + d * B = maxShift B) (hwf : WF B hashOf d shift n) (hn : m.Denotes d a n)
    (h : m.Inv owned dying) (hpos : 0 < refs a m.heap) (hk : Alone k d n) :
    doSub B hashOf k empty d shift a m = none := by
  induction d generalizing shift n a with
  | zero => cases n <;> exact hk.elim
  | succ d ih =>
    cases n with
    | collision values => exact hk.elim
    | inner node =>
      obtain ⟨node', hv, halike⟩ := hn
      have hw := index_lt hB (hashOf k) (shift_lt hshift)
      have hnext : shift + B + d * B = maxShift B := by rw [← hshift, Nat.succ_mul]; omega
      obtain ⟨x, hx, rfl⟩ := mem_keys_iff.mp hk.mem_keys
      simp only [doSub, h.view_eq hpos hv, Option.bind_eq_bind, Option.bind_some,
        halike.nodemap_eq, halike.datamap_eq, halike.values_eq, offset_bit _ hw]
      rcases hwf.mem_elems.mp hx with hval | ⟨c, hc, -⟩
      · obtain ⟨hnode, hone⟩ := (hwf.alone_value hval).mp hk
        have hbit := mt (hwf.shaped.disjoint _) (by rw [hval.bit_eq]; decide)
        rw [if_neg (mt (and_bit_ne_zero_iff hw).mp hbit),
          if_pos ((and_bit_ne_zero_iff hw).mpr hval.bit_eq), hval.2, Option.bind_some, if_pos rfl,
          if_pos (.inl hnode), Mem.copyInnerRemoveValue, h.view_eq hpos hv, Option.bind_eq_bind,
          Option.bind_some, Inner.copyInnerRemoveValue, if_pos (halike.datamap_eq ▸ hone)]
        rfl
      · obtain ⟨c', hc', hcn⟩ := forall₂_getElem? halike.children hc.2
        rw [if_pos ((and_bit_ne_zero_iff hw).mpr hc.bit_eq), hc', Option.bind_some,
          ih hnext (hwf.child hc) hcn (h.pos_of_child hpos hv (mem_of_getElem? hc'))
            ((hwf.alone_child hc).mp hk)]
        rfl

end Sub

end Mem

end Pmdk.Hamts
