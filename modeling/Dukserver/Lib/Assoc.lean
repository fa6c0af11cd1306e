/-
# Association lists in insertion order

`set` overwrites the value of a key where it stands and appends a new key at the
end, `erase` takes a key out, and `List.lookup` reads the list.  Both a table
filled entry by entry and the properties of a script object behave so.
`lookup_foldl_set` says what a key is after a list of `set`s: what the last of them
for that key put there.
-/

import Mathlib.Data.List.Basic
import Mathlib.Data.List.Induction

namespace Dukserver
namespace Lib
namespace Assoc

variable {κ ν : Type*} [BEq κ]

/-- Overwrite the value of `k`, or append it. -/
def set (k : κ) (v : ν) : List (κ × ν) → List (κ × ν)
  | [] => [(k, v)]
  | (k', v') :: l => if k' == k then (k', v) :: l else (k', v') :: set k v l

/-- Take the first entry of `k` out. -/
def erase (k : κ) (l : List (κ × ν)) : List (κ × ν) := l.eraseP fun p => p.1 == k

/-- Taking a key out leaves the others in their order. -/
theorem keys_erase_sublist {k : κ} {l : List (κ × ν)} :
    ((erase k l).map Prod.fst).Sublist (l.map Prod.fst) :=
  List.Sublist.map _ List.eraseP_sublist

variable [LawfulBEq κ]

/-- A key is not found in the entry of another. -/
theorem lookup_cons_of_ne {k j : κ} {w : ν} {l : List (κ × ν)} (h : k ≠ j) :
    ((j, w) :: l).lookup k = l.lookup k := by
  rw [List.lookup_cons, beq_eq_false_iff_ne.2 h]

/-- What was set is found, at the first place of the key or at the end. -/
@[simp] theorem lookup_set_self {k : κ} {v : ν} {l : List (κ × ν)} :
    (set k v l).lookup k = some v := by
  induction l with
  | nil => simp [set]
  | cons p l ih =>
    obtain ⟨k', v'⟩ := p
    rw [set]
    split_ifs with h
    · rw [eq_of_beq h, List.lookup_cons_self]
    · rw [lookup_cons_of_ne fun he => h (beq_iff_eq.2 he.symm), ih]

/-- Setting a key changes no other one.  The entry is replaced in its place or
appended, and the others stay in theirs. -/
theorem lookup_set_of_ne {k k' : κ} {v : ν} {l : List (κ × ν)} (hne : k' ≠ k) :
    (set k v l).lookup k' = l.lookup k' := by
  induction l with
  | nil => rw [set, lookup_cons_of_ne hne]
  | cons p l ih =>
    obtain ⟨j, w⟩ := p
    rw [set]
    split_ifs with h
    · obtain rfl := eq_of_beq h
      rw [lookup_cons_of_ne hne, lookup_cons_of_ne hne]
    · rw [List.lookup_cons, List.lookup_cons, ih]

/-- The keys behind a `set` are those before it and the one that was set.  This
is what an invariant on the keys is carried through a `set` by. -/
theorem mem_keys_set {k k' : κ} {v : ν} {l : List (κ × ν)} :
    k' ∈ (set k v l).map Prod.fst ↔ k' = k ∨ k' ∈ l.map Prod.fst := by
  induction l with
  | nil => simp [set]
  | cons p l ih =>
    obtain ⟨j, w⟩ := p
    rw [set]
    split_ifs with h
    · obtain rfl := eq_of_beq h
      simp
    · rw [List.map_cons, List.map_cons, List.mem_cons, List.mem_cons, ih]
      tauto

/-- `set` keeps the keys distinct: it appends a key only if there is none. -/
theorem nodup_keys_set {k : κ} {v : ν} {l : List (κ × ν)} (h : (l.map Prod.fst).Nodup) :
    ((set k v l).map Prod.fst).Nodup := by
  induction l with
  | nil => simp [set]
  | cons p l ih =>
    obtain ⟨j, w⟩ := p
    rw [List.map_cons, List.nodup_cons] at h
    rw [set]
    split_ifs with hj
    · exact List.nodup_cons.2 h
    · rw [List.map_cons, List.nodup_cons, mem_keys_set]
      exact ⟨not_or.2 ⟨fun he => hj (beq_iff_eq.2 he), h.1⟩, ih h.2⟩

/-- A new key goes to the end. -/
theorem set_of_not_mem {k : κ} {v : ν} {l : List (κ × ν)} (h : k ∉ l.map Prod.fst) :
    set k v l = l ++ [(k, v)] := by
  induction l with
  | nil => rfl
  | cons p l ih =>
    rw [List.map_cons, List.mem_cons, not_or] at h
    obtain ⟨j, w⟩ := p
    rw [set, if_neg fun he => h.1 (eq_of_beq he).symm, ih h.2, List.cons_append]

/-- A key that is there is overwritten where it stands first, and everything
keeps its place. -/
theorem set_append_cons {k : κ} {v w : ν} {l₁ l₂ : List (κ × ν)} (h : k ∉ l₁.map Prod.fst) :
    set k v (l₁ ++ (k, w) :: l₂) = l₁ ++ (k, v) :: l₂ := by
  induction l₁ with
  | nil => rw [List.nil_append, set, if_pos (beq_self_eq_true k), List.nil_append]
  | cons p l₁ ih =>
    rw [List.map_cons, List.mem_cons, not_or] at h
    obtain ⟨j, u⟩ := p
    rw [List.cons_append, set, if_neg fun he => h.1 (eq_of_beq he).symm, ih h.2, List.cons_append]

omit [BEq κ] [LawfulBEq κ] in
/-- A key stands nowhere or has a first place.  Proofs about `set` and `erase`
go by these two cases. -/
theorem mem_or_exists_first (k : κ) (l : List (κ × ν)) : k ∉ l.map Prod.fst ∨
    ∃ l₁ v l₂, l = l₁ ++ (k, v) :: l₂ ∧ k ∉ l₁.map Prod.fst := by
  induction l with
  | nil => exact .inl List.not_mem_nil
  | cons p l ih =>
    obtain ⟨j, w⟩ := p
    by_cases hj : k = j
    · subst hj
      exact .inr ⟨[], w, l, rfl, List.not_mem_nil⟩
    · rcases ih with hnot | ⟨l₁, v, l₂, rfl, hnot⟩
      · exact .inl (List.not_mem_cons_of_ne_of_not_mem hj hnot)
      · exact .inr ⟨(j, w) :: l₁, v, l₂, rfl, List.not_mem_cons_of_ne_of_not_mem hj hnot⟩

/-- Entries of other keys at the start stay there.  The first entry of the key
comes behind them, or the new one does. -/
theorem prefix_set {k : κ} {v : ν} {i l : List (κ × ν)} (h : i <+: l) (hk : k ∉ i.map Prod.fst) :
    i <+: set k v l := by
  induction i generalizing l with
  | nil => exact List.nil_prefix
  | cons p i ih =>
    cases l with
    | nil => exact absurd h.length_le (by simp)
    | cons q l =>
      obtain ⟨rfl, hi⟩ := List.cons_prefix_cons.1 h
      rw [List.map_cons, List.mem_cons, not_or] at hk
      obtain ⟨j, w⟩ := p
      rw [set, if_neg fun he => hk.1 (eq_of_beq he).symm]
      exact List.cons_prefix_cons.2 ⟨rfl, ih hi hk.2⟩

/-- Nothing is found exactly if the key is nowhere. -/
theorem lookup_eq_none {k : κ} {l : List (κ × ν)} :
    l.lookup k = none ↔ k ∉ l.map Prod.fst := by
  induction l with
  | nil => simp
  | cons p l ih =>
    obtain ⟨j, w⟩ := p
    rw [List.map_cons, List.mem_cons, not_or, ← ih]
    by_cases h : k = j
    · subst h
      simp
    · rw [lookup_cons_of_ne h]
      simp [h]

/-- With distinct keys, what is there is found: no earlier entry is in front of
it. -/
theorem lookup_eq_some {k : κ} {v : ν} {l : List (κ × ν)} (h : (l.map Prod.fst).Nodup) :
    l.lookup k = some v ↔ (k, v) ∈ l := by
  induction l with
  | nil => simp
  | cons p l ih =>
    obtain ⟨j, w⟩ := p
    rw [List.map_cons, List.nodup_cons] at h
    by_cases hk : k = j
    · subst hk
      have hnot : (k, v) ∉ l := fun hm => h.1 (List.mem_map.2 ⟨_, hm, rfl⟩)
      simp [hnot, eq_comm]
    · rw [lookup_cons_of_ne hk]
      simp [hk, ih h.2]

/-- With distinct keys, a list divides at the entry that is found, and the key
does not come again. -/
theorem exists_split {k : κ} {v : ν} {l : List (κ × ν)} (h : (l.map Prod.fst).Nodup)
    (hk : l.lookup k = some v) :
    ∃ before after, l = before ++ (k, v) :: after ∧ ∀ p ∈ after, p.1 ≠ k := by
  obtain ⟨before, after, rfl⟩ := List.append_of_mem ((lookup_eq_some h).1 hk)
  rw [List.map_append, List.map_cons] at h
  refine ⟨before, after, rfl, ?_⟩
  rintro p hp rfl
  exact (List.nodup_cons.1 (List.nodup_append.1 h).2.1).1 (List.mem_map.2 ⟨p, hp, rfl⟩)

/-- **The last `set` of a key counts**, and without one it is what was there
before.  The list is read from its end, so the first that is found there is the
last that was set. -/
theorem lookup_foldl_set {β : Type*} (f : β → κ) (g : β → ν) (l : List β) (e : List (κ × ν))
    (k : κ) :
    (l.foldl (fun e b => set (f b) (g b) e) e).lookup k =
      ((l.reverse.find? fun b => f b == k).map g).or (e.lookup k) := by
  induction l using List.reverseRecOn with
  | nil => simp
  | append_singleton l b ih =>
    rw [List.foldl_append, List.foldl_cons, List.foldl_nil, List.reverse_append,
      List.reverse_singleton, List.singleton_append, List.find?_cons]
    by_cases h : f b = k
    · subst h
      simp
    · rw [lookup_set_of_ne fun he => h he.symm, ih, beq_eq_false_iff_ne.2 h]

/-- Every entry was there or is the one that was set, by induction on the list:
the entry of the key is replaced, and the others stay. -/
theorem mem_set {k : κ} {v : ν} {l : List (κ × ν)} {p : κ × ν} (h : p ∈ set k v l) :
    p = (k, v) ∨ p ∈ l := by
  induction l with
  | nil => exact .inl (List.mem_singleton.1 h)
  | cons q l ih =>
    obtain ⟨j, w⟩ := q
    rw [set] at h
    split_ifs at h with hj
    · obtain rfl := eq_of_beq hj
      rcases List.mem_cons.1 h with rfl | h
      · exact .inl rfl
      · exact .inr (List.mem_cons_of_mem _ h)
    · rcases List.mem_cons.1 h with rfl | h
      · exact .inr (List.mem_cons_self ..)
      · exact (ih h).imp_right (List.mem_cons_of_mem _)

/-- With distinct keys, `set` puts one entry among those of the other keys,
behind those that stood in front of the old one. -/
theorem exists_set_eq {k : κ} {l : List (κ × ν)} (h : (l.map Prod.fst).Nodup) (v : ν) :
    ∃ before after, set k v l = before ++ (k, v) :: after ∧
      before ++ after = l.filter (fun p => !(p.1 == k)) ∧
      before = l.takeWhile fun p => !(p.1 == k) := by
  induction l with
  | nil => exact ⟨[], [], rfl, rfl, rfl⟩
  | cons p l ih =>
    obtain ⟨j, w⟩ := p
    rw [List.map_cons, List.nodup_cons] at h
    rw [set]
    split_ifs with hj
    · obtain rfl := eq_of_beq hj
      have hother : ∀ p ∈ l, (!(p.1 == j)) = true := by
        rintro p hp
        rw [Bool.not_eq_true', beq_eq_false_iff_ne]
        rintro rfl
        exact h.1 (List.mem_map.2 ⟨p, hp, rfl⟩)
      refine ⟨[], l, rfl, ?_, by rw [List.takeWhile_cons_of_neg (by simp)]⟩
      rw [List.filter_cons_of_neg (by simp), List.filter_eq_self.2 hother, List.nil_append]
    · obtain ⟨before, after, hset, hfilter, hbefore⟩ := ih h.2
      refine ⟨(j, w) :: before, after, by rw [hset, List.cons_append], ?_, ?_⟩
      · rw [List.filter_cons_of_pos (by simpa using hj), ← hfilter, List.cons_append]
      · rw [List.takeWhile_cons_of_pos (by simpa using hj), hbefore]

/-- New keys are appended in their order, each behind all those before it.  Read
with `e` empty it says that a list with distinct keys is built by its own
entries. -/
theorem foldl_set_of_nodup {l e : List (κ × ν)} (h : ((e ++ l).map Prod.fst).Nodup) :
    l.foldl (fun e p => set p.1 p.2 e) e = e ++ l := by
  induction l generalizing e with
  | nil => exact (List.append_nil e).symm
  | cons p l ih =>
    have hset : set p.1 p.2 e = e ++ [p] := by
      rw [List.map_append, List.map_cons, List.nodup_append] at h
      exact set_of_not_mem fun hp => h.2.2 _ hp _ (List.mem_cons_self ..) rfl
    rw [List.foldl_cons, hset, ih (by simpa using h), List.append_assoc, List.singleton_append]

/-- The keys in their order: as before, or with the new one at the end.  A key
that is there keeps its place. -/
theorem keys_set {k : κ} {v : ν} {l : List (κ × ν)} : (set k v l).map Prod.fst =
    if k ∈ l.map Prod.fst then l.map Prod.fst else l.map Prod.fst ++ [k] := by
  induction l with
  | nil => rfl
  | cons p l ih =>
    obtain ⟨j, w⟩ := p
    rw [set]
    by_cases hj : j = k
    · subst hj
      simp
    · have hkj : ¬k = j := fun h => hj h.symm
      rw [if_neg (by simpa using hj), List.map_cons, ih]
      simp only [List.map_cons, List.mem_cons, hkj, false_or, List.cons_append]
      split_ifs <;> rfl

/-- With distinct keys nothing of the key remains, so taking out the first is
taking out all. -/
theorem erase_eq_filter {k : κ} {l : List (κ × ν)} (h : (l.map Prod.fst).Nodup) :
    erase k l = l.filter fun p => !(p.1 == k) := by
  induction l with
  | nil => rfl
  | cons p l ih =>
    rw [List.map_cons, List.nodup_cons] at h
    rw [erase, List.eraseP_cons]
    by_cases hp : p.1 = k
    · have hother : ∀ q ∈ l, (!(q.1 == k)) = true := by
        intro q hq
        rw [Bool.not_eq_true', beq_eq_false_iff_ne]
        intro hqk
        exact h.1 (List.mem_map.2 ⟨q, hq, hqk.trans hp.symm⟩)
      rw [beq_iff_eq.2 hp, cond_true, List.filter_cons_of_neg (by simp [hp]),
        List.filter_eq_self.2 hother]
    · rw [beq_eq_false_iff_ne.2 hp, cond_false, List.filter_cons_of_pos (by simp [hp]), ← ih h.2]
      rfl

/-- A key that is not there takes nothing with it. -/
theorem erase_of_not_mem {k : κ} {l : List (κ × ν)} (h : k ∉ l.map Prod.fst) : erase k l = l :=
  List.eraseP_of_forall_not fun p hp hk => h (List.mem_map.2 ⟨p, hp, eq_of_beq hk⟩)

/-- The first entry of a key is taken out, and those behind it move up. -/
theorem erase_append_cons {k : κ} {w : ν} {l₁ l₂ : List (κ × ν)} (h : k ∉ l₁.map Prod.fst) :
    erase k (l₁ ++ (k, w) :: l₂) = l₁ ++ l₂ := by
  have hnot : ∀ p ∈ l₁, ¬(p.1 == k) = true := fun p hp hk =>
    h (List.mem_map.2 ⟨p, hp, eq_of_beq hk⟩)
  rw [erase, List.eraseP_append_right _ hnot, List.eraseP_cons, beq_self_eq_true, cond_true]

/-- A key is found at its first place. -/
theorem lookup_append_cons {k : κ} {w : ν} {l₁ l₂ : List (κ × ν)} (h : k ∉ l₁.map Prod.fst) :
    (l₁ ++ (k, w) :: l₂).lookup k = some w := by
  rw [List.lookup_append, lookup_eq_none.2 h, Option.none_or, List.lookup_cons_self]

/-- Taking a key out changes no other one. -/
theorem lookup_erase_of_ne {k j : κ} {l : List (κ × ν)} (h : j ≠ k) :
    (erase k l).lookup j = l.lookup j := by
  induction l with
  | nil => rfl
  | cons p l ih =>
    obtain ⟨i, w⟩ := p
    rw [erase, List.eraseP_cons]
    by_cases hi : i = k
    · subst hi
      rw [beq_self_eq_true, cond_true, lookup_cons_of_ne h]
    · rw [beq_eq_false_iff_ne.2 hi, cond_false, List.lookup_cons, List.lookup_cons, ← ih]
      rfl

/-- With distinct keys, what remains is known up to the order, so a block that
is freed leaves the others whatever the order they stand in. -/
theorem perm_erase {k : κ} {v : ν} {l rest : List (κ × ν)} (hperm : l.Perm ((k, v) :: rest))
    (h : (((k, v) :: rest).map Prod.fst).Nodup) : (erase k l).Perm rest := by
  have hl : (l.map Prod.fst).Nodup := (hperm.map Prod.fst).nodup_iff.2 h
  obtain ⟨hnot, -⟩ := List.nodup_cons.1 h
  have hrest : rest.filter (fun p => !(p.1 == k)) = rest := by
    refine List.filter_eq_self.2 fun p hp => ?_
    rw [Bool.not_eq_true', beq_eq_false_iff_ne]
    rintro rfl
    exact hnot (List.mem_map.2 ⟨p, hp, rfl⟩)
  have hfilter := hperm.filter fun p => !(p.1 == k)
  rwa [List.filter_cons_of_neg (by simp), hrest, ← erase_eq_filter hl] at hfilter

/-- With distinct keys, a key that was taken out is not found any more. -/
theorem lookup_erase_self {k : κ} {l : List (κ × ν)} (h : (l.map Prod.fst).Nodup) :
    (erase k l).lookup k = none := by
  rw [lookup_eq_none, erase_eq_filter h, List.mem_map]
  rintro ⟨p, hp, rfl⟩
  simpa using (List.mem_filter.1 hp).2

end Assoc

end Lib
end Dukserver
