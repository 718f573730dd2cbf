import Mathlib.Algebra.Order.Ring.Nat
import Mathlib.Data.List.Nodup

/-!
# Hash tables with chains

A key is looked for in the chain of its bucket, and new keys come to the front of it.
-/

namespace ChainHash

open List

variable {κ ν : Type*} (bucket : κ → Nat) (same : κ → κ → Bool)

abbrev Chains (κ ν : Type*) := List (List (κ × ν))

def find (key : κ) : List (κ × ν) → Option (κ × ν)
  | [] => none
  | e :: chain => if same key e.1 then some e else find key chain

def erase (key : κ) : List (κ × ν) → List (κ × ν)
  | [] => []
  | e :: chain => if same key e.1 then chain else e :: erase key chain

def get (t : Chains κ ν) (key : κ) : Option ν :=
  (find same key (t.getD (bucket key) [])).map Prod.snd

def set (t : Chains κ ν) (key : κ) (val : ν) : Chains κ ν :=
  t.modify (bucket key) ((key, val) :: ·)

def del (t : Chains κ ν) (key : κ) : Chains κ ν := t.modify (bucket key) (erase same key)

structure Sound (keys : κ → Prop) (t : Chains κ ν) : Prop where
  keys : ∀ chain ∈ t, ∀ e ∈ chain, keys e.1
  nodup : ∀ chain ∈ t, (chain.map Prod.fst).Nodup

variable {bucket same} {keys : κ → Prop} {t : Chains κ ν} {key key' : κ} {val : ν}

theorem getD_modify (f : List (κ × ν) → List (κ × ν)) {i : Nat} (hi : i < t.length) (j : Nat) :
    (t.modify i f).getD j [] = if i = j then f (t.getD j []) else t.getD j [] := by
  rw [getD_eq_getElem?_getD, getD_eq_getElem?_getD, getElem?_modify]
  by_cases hij : i = j
  · subst hij
    rw [if_pos rfl, getElem?_eq_getElem hi]
    simp
  · rw [if_neg hij]
    cases t[j]? with
    | none => rfl
    | some chain => simp [hij]

theorem mem_modify {i : Nat} {f : List (κ × ν) → List (κ × ν)} {chain : List (κ × ν)}
    (h : chain ∈ t.modify i f) : chain ∈ t ∨ ∃ old ∈ t, t.getD i [] = old ∧ chain = f old := by
  obtain ⟨j, hj⟩ := mem_iff_getElem?.mp h
  rw [getElem?_modify] at hj
  obtain ⟨old, hold, heq⟩ := Option.map_eq_some_iff.mp hj
  have hmem := mem_of_getElem? hold
  split at heq
  · rename_i hij
    refine Or.inr ⟨old, hmem, ?_, heq.symm⟩
    rw [hij, getD_eq_getElem?_getD, hold]
    rfl
  · exact Or.inl (heq ▸ hmem)

theorem find_eq_none {chain : List (κ × ν)} :
    find same key chain = none ↔ ∀ e ∈ chain, ¬same key e.1 = true := by
  induction chain with
  | nil => exact iff_of_true rfl fun _ he => (not_mem_nil he).elim
  | cons e chain ih =>
    rw [find, forall_mem_cons, ← ih]
    split
    · rename_i h
      exact iff_of_false (Option.some_ne_none e) fun hnone => hnone.1 h
    · rename_i h
      exact (and_iff_right h).symm

theorem erase_sublist (chain : List (κ × ν)) : (erase same key chain).Sublist chain := by
  induction chain with
  | nil => exact List.Sublist.slnil
  | cons e chain ih =>
    rw [erase]
    split
    · exact sublist_cons_self e chain
    · exact ih.cons_cons e

theorem find_congr (hsame : ∀ k, same key' k = same key k) (chain : List (κ × ν)) :
    find same key' chain = find same key chain := by
  induction chain with
  | nil => rfl
  | cons e chain ih => rw [find, find, hsame, ih]

theorem erase_congr (hsame : ∀ k, same key' k = same key k) (chain : List (κ × ν)) :
    erase same key' chain = erase same key chain := by
  induction chain with
  | nil => rfl
  | cons e chain ih => rw [erase, erase, hsame, ih]

theorem get_congr (hbucket : bucket key' = bucket key) (hsame : ∀ k, same key' k = same key k) :
    get bucket same t key' = get bucket same t key := by
  rw [get, hbucket, find_congr hsame, get]

theorem del_congr (hbucket : bucket key' = bucket key) (hsame : ∀ k, same key' k = same key k) :
    del bucket same t key' = del bucket same t key := by
  rw [del, hbucket, funext (erase_congr hsame), del]

theorem Sound.chain (h : Sound keys t) (i : Nat) :
    (∀ e ∈ t.getD i [], keys e.1) ∧ ((t.getD i []).map Prod.fst).Nodup := by
  rw [getD_eq_getElem?_getD]
  cases hget : t[i]? with
  | none => exact ⟨fun _ he => (not_mem_nil he).elim, nodup_nil⟩
  | some chain =>
    have hmem := mem_of_getElem? hget
    exact ⟨h.keys chain hmem, h.nodup chain hmem⟩

theorem Sound.del (h : Sound keys t) : Sound keys (del bucket same t key) := by
  refine ⟨fun chain hchain e he => ?_, fun chain hchain => ?_⟩
  · rcases mem_modify hchain with hold | ⟨old, hold, -, rfl⟩
    · exact h.keys chain hold e he
    · exact h.keys old hold e ((erase_sublist old).subset he)
  · rcases mem_modify hchain with hold | ⟨old, hold, -, rfl⟩
    · exact h.nodup chain hold
    · exact (h.nodup old hold).sublist ((erase_sublist old).map Prod.fst)

section Map

variable (hsame : ∀ a b, keys a → keys b → (same a b = true ↔ a = b))

include hsame

theorem get_set [DecidableEq κ] (hkey : keys key) (hkey' : keys key')
    (hbucket : bucket key < t.length) :
    get bucket same (set bucket t key val) key' =
      if key' = key then some val else get bucket same t key' := by
  rw [get, set, getD_modify _ hbucket]
  by_cases heq : key' = key
  · subst heq
    rw [if_pos rfl, if_pos rfl, find, if_pos ((hsame key' key' hkey' hkey').mpr rfl)]
    rfl
  · rw [if_neg heq, get]
    split
    · rw [find, if_neg fun h => heq ((hsame key' key hkey' hkey).mp h)]
    · rfl

theorem Sound.set (h : Sound keys t) (hkey : keys key) (hnew : get bucket same t key = none) :
    Sound keys (set bucket t key val) := by
  rw [get, Option.map_eq_none_iff, find_eq_none] at hnew
  refine ⟨fun chain hchain e he => ?_, fun chain hchain => ?_⟩
  · rcases mem_modify hchain with hold | ⟨old, hold, -, rfl⟩
    · exact h.keys chain hold e he
    · rcases mem_cons.mp he with rfl | he
      · exact hkey
      · exact h.keys old hold e he
  · rcases mem_modify hchain with hold | ⟨old, hold, hget, rfl⟩
    · exact h.nodup chain hold
    · rw [map_cons, nodup_cons]
      refine ⟨fun hmem => ?_, h.nodup old hold⟩
      obtain ⟨e, he, hfst⟩ := mem_map.mp hmem
      exact hnew e (hget ▸ he) ((hsame key e.1 hkey (h.keys old hold e he)).mpr hfst.symm)

theorem find_erase [DecidableEq κ] {chain : List (κ × ν)} (hkeys : ∀ e ∈ chain, keys e.1)
    (hnodup : (chain.map Prod.fst).Nodup) (hkey : keys key) (hkey' : keys key') :
    find same key' (erase same key chain) = if key' = key then none else find same key' chain := by
  induction chain with
  | nil => exact (ite_self none).symm
  | cons e chain ih =>
    rw [map_cons, nodup_cons] at hnodup
    have hrest := fun e' he' => hkeys e' (mem_cons_of_mem e he')
    have he := hsame key e.1 hkey (hkeys e mem_cons_self)
    have he' := hsame key' e.1 hkey' (hkeys e mem_cons_self)
    rw [erase, find]
    by_cases hfound : same key e.1 = true
    · rw [if_pos hfound]
      by_cases heq : key' = key
      · rw [if_pos heq, find_eq_none]
        intro e' hmem hsame'
        have hfst := (hsame key' e'.1 hkey' (hrest e' hmem)).mp hsame'
        rw [heq, he.mp hfound] at hfst
        exact hnodup.1 (hfst ▸ mem_map_of_mem hmem)
      · rw [if_neg heq, if_neg fun h => heq ((he'.mp h).trans (he.mp hfound).symm)]
    · rw [if_neg hfound, find, ih hrest hnodup.2]
      by_cases hfound' : same key' e.1 = true
      · rw [if_pos hfound', if_pos hfound', if_neg fun heq : key' = key => hfound (heq ▸ hfound')]
      · rw [if_neg hfound', if_neg hfound']

theorem get_del [DecidableEq κ] (h : Sound keys t) (hkey : keys key) (hkey' : keys key')
    (hbucket : bucket key < t.length) :
    get bucket same (del bucket same t key) key' =
      if key' = key then none else get bucket same t key' := by
  obtain ⟨hkeys, hnodup⟩ := h.chain (bucket key')
  rw [get, get, del, getD_modify _ hbucket]
  by_cases hij : bucket key = bucket key'
  · rw [if_pos hij, find_erase hsame hkeys hnodup hkey hkey']
    split <;> rfl
  · rw [if_neg hij, if_neg fun heq => hij (congrArg bucket heq.symm)]

end Map

end ChainHash
