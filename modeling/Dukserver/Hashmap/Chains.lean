/-
# The chains of the hash map

`Holds m b` says that the chain of each slot `i` is the list of pairs `b i`: a linked list
in memory that runs to `NULL`, with the keys that belong to the slot, each once.  Two
chains share no node, because the key of a node says which slot it is in.  Each of the
three functions looks for a node with `search` and then changes one chain, so what it does
is `Holds.replace` with the pairs of `Lib.Assoc` for that slot.
-/

import Dukserver.Hashmap.Table
import Dukserver.Lib.History
import Dukserver.Lib.Linked

namespace Dukserver
namespace Hashmap

open Http (Fault)
open Lib (Bytes cstr)
open Lib.Linked (Seg seg_append)

/-! ### One chain -/

/-- The nodes of a chain, each with its address. -/
abbrev Cells := List (ℕ × HashmapList)

/-- A node holds a pair. -/
def content (c : ℕ × HashmapList) : Option Bytes × Option Bytes := (c.2.key, c.2.data)

/-- The pair as its node holds it. -/
def stored (p : Bytes × Bytes) : Option Bytes × Option Bytes := (some p.1, some p.2)

/-- The nodes from `p` to `NULL` hold these pairs. -/
def Chain (mem : Memory) (p : ℕ) (l : List (Bytes × Bytes)) : Prop :=
  ∃ cells : Cells, Seg HashmapList.next mem p cells 0 ∧ cells.map content = l.map stored

variable {mem : Memory} {p q a s fuel : ℕ} {cells : Cells} {l : List (Bytes × Bytes)}
  {k v : Bytes} {node : HashmapList}

/-- A node that is there is read, and `NULL` is none.  Reading at an address
without a node is the fault that a broken chain would lead to. -/
theorem deref_eq (hnull : mem 0 = none) (hp : mem p = some node) :
    p ≠ 0 ∧ deref mem p = .ok node := by
  have hne : p ≠ 0 := by
    rintro rfl
    rw [hnull] at hp
    cases hp
  exact ⟨hne, by rw [deref, if_neg hne, hp]⟩

/-- A chain with a node does not begin with `NULL`. -/
theorem ne_zero_of_seg (hnull : mem 0 = none) (h : Seg HashmapList.next mem p cells q)
    (hne : cells ≠ []) : p ≠ 0 := by
  obtain ⟨c, rest, rfl⟩ := List.exists_cons_of_ne_nil hne
  obtain ⟨rfl, hc, -⟩ := h
  exact (deref_eq hnull hc).1

/-- Pairs and nodes divide at the same places. -/
theorem exists_cells_append {l₁ l₂ : List (Bytes × Bytes)}
    (h : cells.map content = (l₁ ++ l₂).map stored) : ∃ c₁ c₂, cells = c₁ ++ c₂ ∧
      c₁.map content = l₁.map stored ∧ c₂.map content = l₂.map stored := by
  rw [List.map_append] at h
  obtain ⟨c₁, c₂, rfl, h₁, h₂⟩ := List.map_eq_append_iff.1 h
  exact ⟨c₁, c₂, rfl, h₁, h₂⟩

/-- The key of a node is one of the pairs'. -/
theorem exists_key {c : ℕ × HashmapList} (h : cells.map content = l.map stored) (hc : c ∈ cells) :
    ∃ key ∈ l.map Prod.fst, c.2.key = some key := by
  have hmem : content c ∈ l.map stored := h ▸ List.mem_map.2 ⟨c, hc, rfl⟩
  obtain ⟨pair, hpair, he⟩ := List.mem_map.1 hmem
  exact ⟨pair.1, List.mem_map.2 ⟨pair, hpair, rfl⟩, (congrArg Prod.fst he).symm⟩

/-- The search passes the nodes of other keys; the last of them is the one
before. -/
theorem search_append {prev : Option ℕ} (hnull : mem 0 = none)
    (h : Seg HashmapList.next mem p cells q) (hl : cells.map content = l.map stored)
    (hk : cstr k ∉ l.map Prod.fst) : search mem k (cells.length + fuel) prev p =
      search mem k fuel ((cells.getLast?.map Prod.fst).or prev) q := by
  induction cells generalizing p prev l with
  | nil =>
    obtain rfl : p = q := h
    rw [List.length_nil, Nat.zero_add]
    rfl
  | cons c cells ih =>
    obtain ⟨rfl, hc, hrest⟩ := h
    obtain ⟨hne, hderef⟩ := deref_eq hnull hc
    obtain ⟨key, hkey, hckey⟩ := exists_key hl (List.mem_cons_self ..)
    have hother : (key == cstr k) = false := beq_eq_false_iff_ne.2 fun he => hk (he ▸ hkey)
    cases l with
    | nil => cases hl
    | cons pair l =>
      rw [List.map_cons, List.mem_cons, not_or] at hk
      rw [List.length_cons, Nat.add_right_comm, search, if_neg hne, hderef, Lib.ok_bind, hckey]
      dsimp only
      rw [hother, if_neg Bool.false_ne_true, ih hrest (List.cons.inj hl).2 hk.2,
        List.getLast?_cons]
      cases cells.getLast? <;> rfl

/-- It ends at `NULL`. -/
theorem search_null {prev : Option ℕ} : search mem k (fuel + 1) prev 0 = .ok (prev, 0) := by
  rw [search, if_pos rfl]

/-- And at a node that has the key. -/
theorem search_here {prev : Option ℕ} (hnull : mem 0 = none) (hp : mem p = some node)
    (hkey : node.key = some (cstr k)) : search mem k (fuel + 1) prev p = .ok (prev, p) := by
  obtain ⟨hne, hderef⟩ := deref_eq hnull hp
  rw [search, if_neg hne, hderef, Lib.ok_bind, hkey]
  dsimp only
  rw [beq_self_eq_true, if_pos rfl]

/-- Writing a node whose key is not among the pairs leaves the chain.  A node of
the chain has one of its keys, so the address is not one of theirs. -/
theorem Chain.update (h : Chain mem p l) (o : Option HashmapList)
    (ha : ∀ node, mem a = some node → ∀ key ∈ l.map Prod.fst, node.key ≠ some key) :
    Chain (Function.update mem a o) p l := by
  obtain ⟨cells, hseg, hl⟩ := h
  refine ⟨cells, hseg.update (fun hmem => ?_) o, hl⟩
  obtain ⟨c, hc, rfl⟩ := List.mem_map.1 hmem
  obtain ⟨key, hkey, hckey⟩ := exists_key hl hc
  exact ha c.2 (hseg.mem_eq hc) key hkey hckey

/-- The node of a new pair. -/
def newNode (k v : Bytes) : HashmapList := ⟨0, some (cstr k), some (cstr v)⟩

section Rewriting

variable {init tail : Cells} {n n' : HashmapList}

/-- The last node before `q` is not met earlier: from a node on, a chain to
`NULL` is determined, so none comes twice. -/
theorem not_mem_init (hnull : mem 0 = none)
    (h : Seg HashmapList.next mem p (init ++ (a, n) :: tail) 0) :
    a ∉ init.map Prod.fst ∧ a ∉ tail.map Prod.fst := by
  have hnodup := h.nodup hnull
  rw [List.map_append, List.map_cons, List.nodup_append] at hnodup
  exact ⟨fun ha => hnodup.2.2 a ha a (List.mem_cons_self ..) rfl,
    (List.nodup_cons.1 hnodup.2.1).1⟩

/-- A new node is linked behind the last.  Its address is a new one, so writing
it changes no node of the chain, and the last node is written in place with
another `next`. -/
theorem chain_link (hnull : mem 0 = none) (h : Seg HashmapList.next mem p (init ++ [(q, n)]) 0)
    (hl : (init ++ [(q, n)]).map content = l.map stored) (ha : mem a = none) (k v : Bytes) :
    Chain (Function.update (Function.update mem q (some { n with next := a })) a
      (some (newNode k v))) p (l ++ [(cstr k, cstr v)]) := by
  have hafront : a ∉ (init ++ [(q, { n with next := a })]).map Prod.fst := by
    intro hmem
    have hmem' : a ∈ (init ++ [(q, n)]).map Prod.fst := by simpa using hmem
    obtain ⟨c, hc, rfl⟩ := List.mem_map.1 hmem'
    rw [h.mem_eq hc] at ha
    cases ha
  have hfront : Seg HashmapList.next _ p (init ++ [(q, { n with next := a })]) a :=
    (h.update_last (not_mem_init hnull h).1).update hafront (some (newNode k v))
  refine ⟨(init ++ [(q, { n with next := a })]) ++ [(a, newNode k v)],
    seg_append.2 ⟨a, hfront, rfl, Function.update_self .., rfl⟩, ?_⟩
  rw [List.map_append] at hl
  rw [List.map_append, List.map_append, List.map_append, ← hl]
  rfl

/-- A node gets another value.  It keeps its key and its `next`, so the chain
goes the same way. -/
theorem chain_overwrite {l₁ l₂ : List (Bytes × Bytes)} {w : Bytes} (hnull : mem 0 = none)
    (h : Seg HashmapList.next mem p (init ++ (q, n) :: tail) 0)
    (hinit : init.map content = l₁.map stored)
    (htail : ((q, n) :: tail).map content = ((k, w) :: l₂).map stored) :
    Chain (Function.update mem q (some { n with data := some v })) p (l₁ ++ (k, v) :: l₂) := by
  obtain ⟨hqinit, hqtail⟩ := not_mem_init hnull h
  rw [List.append_cons] at h
  obtain ⟨r, hfront, hback⟩ := seg_append.1 h
  have hr : n.next = r := by
    obtain ⟨-, -, -, -, hr⟩ := seg_append.1 hfront
    exact hr
  subst hr
  refine ⟨(init ++ [(q, { n with data := some v })]) ++ tail,
    seg_append.2 ⟨n.next, hfront.update_last hqinit, hback.update hqtail _⟩, ?_⟩
  rw [List.map_cons, List.map_cons] at htail
  obtain ⟨hn, htail⟩ := List.cons.inj htail
  have hkey : n.key = some k := congrArg Prod.fst hn
  rw [← List.append_cons, List.map_append, List.map_append, List.map_cons, List.map_cons, hinit,
    htail, content, hkey]
  rfl

/-- A node behind another is unlinked.  The one before it gets its `next`, and
the node is freed afterwards, when the chain does not meet it any more. -/
theorem chain_unlink {l₁ l₂ : List (Bytes × Bytes)} {c : ℕ × HashmapList} {w : Bytes × Bytes}
    (hnull : mem 0 = none) (h : Seg HashmapList.next mem p ((init ++ [(q, n)]) ++ c :: tail) 0)
    (hinit : (init ++ [(q, n)]).map content = l₁.map stored)
    (htail : (c :: tail).map content = (w :: l₂).map stored) :
    Chain (Function.update (Function.update mem q (some { n with next := c.2.next })) c.1 none) p
      (l₁ ++ l₂) := by
  obtain ⟨hcinit, hctail⟩ := not_mem_init hnull h
  obtain ⟨r, hfront, rfl, -, hback⟩ := seg_append.1 h
  rw [List.append_assoc, List.singleton_append] at h
  obtain ⟨hqinit, hqtail⟩ := not_mem_init hnull h
  rw [List.map_cons, List.mem_cons, not_or] at hqtail
  have hfront' : Seg HashmapList.next _ p (init ++ [(q, { n with next := c.2.next })]) c.2.next :=
    (hfront.update_last hqinit).update (by simpa using hcinit) none
  refine ⟨(init ++ [(q, { n with next := c.2.next })]) ++ tail,
    seg_append.2 ⟨_, hfront', (hback.update hqtail.2 _).update hctail _⟩, ?_⟩
  rw [List.map_cons, List.map_cons] at htail
  rw [List.map_append] at hinit
  rw [List.map_append, List.map_append, List.map_append, (List.cons.inj htail).2, ← hinit]
  rfl

/-- The first node is unlinked: the chain begins with the next one. -/
theorem chain_tail {l₂ : List (Bytes × Bytes)} {c : ℕ × HashmapList} {w : Bytes × Bytes}
    (hnull : mem 0 = none) (h : Seg HashmapList.next mem p (c :: tail) 0)
    (htail : (c :: tail).map content = (w :: l₂).map stored) :
    Chain (Function.update mem c.1 none) c.2.next l₂ := by
  have hc := (not_mem_init hnull (show Seg HashmapList.next mem p ([] ++ c :: tail) 0 from h)).2
  exact ⟨tail, h.2.2.update hc none, (List.cons.inj htail).2⟩

end Rewriting

/-! ### The table -/

/-- The chain of slot `i` holds the pairs `b i`. -/
structure Holds (m : HashmapT) (b : ℕ → List (Bytes × Bytes)) : Prop where
  pos : 0 < m.maxSlot
  slots : m.slot.length = m.maxSlot
  null : m.mem 0 = none
  chains : ∀ i p, m.slot[i]? = some p → Chain m.mem p (b i)
  placed : ∀ i, ∀ k ∈ (b i).map Prod.fst, slotOf m.maxSlot k = i
  distinct : ∀ i, ((b i).map Prod.fst).Nodup
  length : m.length = ((List.range m.maxSlot).flatMap b).length

variable {m m' : HashmapT} {b : ℕ → List (Bytes × Bytes)} {i : ℕ}

/-- A step that leaves the chains of the other slots: only the chain of its slot
has to be looked at. -/
theorem Holds.replace (h : Holds m b) (hi : i < m.maxSlot) (hmax : m'.maxSlot = m.maxSlot)
    (hslots : m'.slot.length = m.maxSlot) (hnull : m'.mem 0 = none)
    (hchain : ∀ p, m'.slot[i]? = some p → Chain m'.mem p l)
    (hother : ∀ j p, j ≠ i → m'.slot[j]? = some p → Chain m'.mem p (b j))
    (hplaced : ∀ k ∈ l.map Prod.fst, slotOf m.maxSlot k = i) (hdistinct : (l.map Prod.fst).Nodup)
    (hlength : m'.length + (b i).length = m.length + l.length) :
    Holds m' (Function.update b i l) where
  pos := hmax ▸ h.pos
  slots := hslots.trans hmax.symm
  null := hnull
  chains j p hp := by
    by_cases hj : j = i
    · subst hj
      rw [Function.update_self]
      exact hchain p hp
    · rw [Function.update_of_ne hj]
      exact hother j p hj hp
  placed j key hkey := by
    rw [hmax]
    by_cases hj : j = i
    · subst hj
      rw [Function.update_self] at hkey
      exact hplaced key hkey
    · rw [Function.update_of_ne hj] at hkey
      exact h.placed j key hkey
  distinct j := by
    by_cases hj : j = i
    · subst hj
      rw [Function.update_self]
      exact hdistinct
    · rw [Function.update_of_ne hj]
      exact h.distinct j
  length := by
    have hupdate := Lib.History.length_flatMap_update (b := b) (x := l) hi
    have hlen := h.length
    rw [hmax]
    omega

/-- Writing a node of one slot leaves the chains of the others, as its key is in
none of them. -/
theorem Holds.update_other (h : Holds m b) {j : ℕ} (hij : j ≠ i) (hp : m.slot[j]? = some p)
    (hq : m.mem q = some node) {key : Bytes} (hkey : key ∈ (b i).map Prod.fst)
    (hnode : node.key = some key) (o : Option HashmapList) :
    Chain (Function.update m.mem q o) p (b j) := by
  refine (h.chains j p hp).update o fun node' hnode' key' hkey' he => ?_
  rw [hq, Option.some.injEq] at hnode'
  subst hnode'
  rw [hnode, Option.some.injEq] at he
  subst he
  exact hij ((h.placed j _ hkey').symm.trans (h.placed i _ hkey))

/-- Writing where nothing is allocated leaves every chain. -/
theorem Chain.update_fresh (h : Chain mem p l) (ha : mem a = none) (o : Option HashmapList) :
    Chain (Function.update mem a o) p l :=
  h.update o fun node hnode => by rw [ha] at hnode; cases hnode

/-- A chain is no longer than the table. -/
theorem Holds.chain_le (h : Holds m b) (hi : i < m.maxSlot) : (b i).length ≤ m.length := by
  rw [h.length, List.flatMap]
  exact (List.sublist_flatten_of_mem
    (List.mem_map.2 ⟨i, List.mem_range.2 hi, rfl⟩)).length_le

/-- The slot of a key is one of the table. -/
theorem Holds.slotOf_lt (h : Holds m b) (key : Bytes) : slotOf m.maxSlot key < m.maxSlot :=
  Nat.mod_lt _ h.pos

/-- The slot of a key and its chain.  There is one for every number below
`maxSlot`, which is what the checksum is reduced to. -/
theorem Holds.exists_slot (h : Holds m b) (hi : i < m.maxSlot) :
    ∃ s cells, m.slot[i]? = some s ∧ readSlot m.slot i = .ok s ∧
      Seg HashmapList.next m.mem s cells 0 ∧ cells.map content = (b i).map stored ∧
      cells.length ≤ m.length := by
  have hlt : i < m.slot.length := by rwa [h.slots]
  have hget : m.slot[i]? = some m.slot[i] := List.getElem?_eq_getElem hlt
  obtain ⟨cells, hseg, hl⟩ := h.chains i _ hget
  have hlen := congrArg List.length hl
  rw [List.length_map, List.length_map] at hlen
  exact ⟨_, cells, hget, by rw [readSlot, hget], hseg, hl, hlen.trans_le (h.chain_le hi)⟩

/-- A search for a key that is not there runs to the end, and keeps the last
node. -/
theorem Holds.search_missing (h : Holds m b) (hi : i < m.maxSlot)
    (hk : cstr k ∉ (b i).map Prod.fst) : ∃ s cells, m.slot[i]? = some s ∧
      readSlot m.slot i = .ok s ∧ Seg HashmapList.next m.mem s cells 0 ∧
      cells.map content = (b i).map stored ∧
      ∀ prev, search m.mem k (m.length + 1) prev s =
        .ok ((cells.getLast?.map Prod.fst).or prev, 0) := by
  obtain ⟨s, cells, hget, hread, hseg, hl, hlen⟩ := h.exists_slot hi
  obtain ⟨fuel, hfuel⟩ := Nat.exists_eq_add_of_le hlen
  refine ⟨s, cells, hget, hread, hseg, hl, fun prev => ?_⟩
  rw [hfuel, Nat.add_assoc, search_append h.null hseg hl hk, search_null]

/-- A search for a key that is there stops at its node, and keeps the one
before. -/
theorem Holds.search_found (h : Holds m b) (hi : i < m.maxSlot) {l₁ l₂ : List (Bytes × Bytes)}
    {w : Bytes} (hb : b i = l₁ ++ (cstr k, w) :: l₂) (hk : cstr k ∉ l₁.map Prod.fst) :
    ∃ s init q n tail, m.slot[i]? = some s ∧ readSlot m.slot i = .ok s ∧ s ≠ 0 ∧
      Seg HashmapList.next m.mem s (init ++ (q, n) :: tail) 0 ∧
      init.map content = l₁.map stored ∧
      ((q, n) :: tail).map content = ((cstr k, w) :: l₂).map stored ∧
      (∀ prev, search m.mem k (m.length + 1) prev s =
        .ok ((init.getLast?.map Prod.fst).or prev, q)) ∧
      m.mem q = some n ∧ q ≠ 0 ∧ deref m.mem q = .ok n := by
  obtain ⟨s, cells, hget, hread, hseg, hl, hlen⟩ := h.exists_slot hi
  rw [hb] at hl
  obtain ⟨init, rest, rfl, hinit, hrest⟩ := exists_cells_append hl
  cases rest with
  | nil => cases hrest
  | cons c tail =>
    obtain ⟨q, n⟩ := c
    have hq : m.mem q = some n := hseg.mem_eq (List.mem_append_right _ (List.mem_cons_self ..))
    obtain ⟨hq0, hderef⟩ := deref_eq h.null hq
    have hnkey : n.key = some (cstr k) := congrArg Prod.fst (List.cons.inj hrest).1
    have hfuel : ∃ fuel, m.length + 1 = init.length + (fuel + 1) := by
      rw [List.length_append, List.length_cons] at hlen
      exact ⟨m.length - init.length, by omega⟩
    obtain ⟨fuel, hfuel⟩ := hfuel
    obtain ⟨r, hfront, hr, -⟩ := seg_append.1 hseg
    obtain rfl : r = q := hr
    refine ⟨s, init, r, n, tail, hget, hread, ne_zero_of_seg h.null hseg (by simp), hseg, hinit,
      hrest, fun prev => ?_, hq, hq0, hderef⟩
    rw [hfuel, search_append h.null hfront hinit hk, search_here h.null hq hnkey]

/-! ### `hashmap_set` -/

/-- An empty slot gets a chain of one node, whose address is written to the
slot. -/
theorem hashmapSet_empty (h : Holds m b) (hi : slotOf m.maxSlot (cstr k) = i)
    (hempty : b i = []) (ha : m.mem a = none) (ha0 : a ≠ 0) :
    ∃ m', hashmapSet m k v a = .ok (m', 1) ∧ m'.maxSlot = m.maxSlot ∧
      Holds m' (Function.update b i [(cstr k, cstr v)]) := by
  have hlt : i < m.maxSlot := hi ▸ h.slotOf_lt _
  obtain ⟨s, cells, hget, hread, hseg, hl, -⟩ := h.exists_slot hlt
  rw [hempty, List.map_nil, List.map_eq_nil_iff] at hl
  subst hl
  obtain rfl : s = 0 := hseg
  rw [hashmapSet]
  dsimp only
  rw [hi, hread, Lib.ok_bind, if_pos rfl]
  refine ⟨_, rfl, rfl, h.replace hlt rfl ?_ ?_ (fun p hp => ?_) (fun j p hj hp => ?_) ?_ ?_ ?_⟩
  · rw [List.length_set]
    exact h.slots
  · exact (Function.update_of_ne ha0.symm ..).trans h.null
  · dsimp only at hp
    rw [List.getElem?_set_self (by rwa [h.slots]), Option.some.injEq] at hp
    subst hp
    exact ⟨[(a, newNode k v)], ⟨rfl, Function.update_self .., rfl⟩, rfl⟩
  · dsimp only at hp
    rw [List.getElem?_set_ne hj.symm] at hp
    exact (h.chains j p hp).update_fresh ha _
  · intro key hkey
    rw [List.map_singleton, List.mem_singleton] at hkey
    rw [hkey, hi]
  · exact List.nodup_singleton _
  · rw [hempty]
    rfl

/-- A new key is linked behind the last node of its chain: the search has run to
the end and kept that node. -/
theorem hashmapSet_behind (h : Holds m b) (hi : slotOf m.maxSlot (cstr k) = i)
    (hne : b i ≠ []) (hk : cstr k ∉ (b i).map Prod.fst) (ha : m.mem a = none) (ha0 : a ≠ 0) :
    ∃ m', hashmapSet m k v a = .ok (m', 1) ∧ m'.maxSlot = m.maxSlot ∧
      Holds m' (Function.update b i (b i ++ [(cstr k, cstr v)])) := by
  have hlt : i < m.maxSlot := hi ▸ h.slotOf_lt _
  obtain ⟨s, cells, hget, hread, hseg, hl, hsearch⟩ := h.search_missing hlt hk
  have hcells : cells ≠ [] := by
    rintro rfl
    exact hne (List.map_eq_nil_iff.1 hl.symm)
  have hs : s ≠ 0 := ne_zero_of_seg h.null hseg hcells
  obtain ⟨init, ⟨q, last⟩, rfl⟩ : ∃ init c, cells = init ++ [c] :=
    ⟨_, _, (List.dropLast_append_getLast hcells).symm⟩
  have hmem : (q, last) ∈ init ++ [(q, last)] :=
    List.mem_append_right _ (List.mem_singleton_self _)
  have hlast : m.mem q = some last := hseg.mem_eq hmem
  obtain ⟨hq0, hderef⟩ := deref_eq h.null hlast
  obtain ⟨key, hkey, hlastKey⟩ := exists_key hl hmem
  have hqa : a ≠ q := by
    rintro rfl
    rw [ha] at hlast
    cases hlast
  have hfresh : ∀ o, Function.update m.mem q o a = none := fun o =>
    (Function.update_of_ne hqa ..).trans ha
  rw [hashmapSet]
  dsimp only
  rw [hi, hread, Lib.ok_bind, if_neg hs, hsearch, Lib.ok_bind, List.getLast?_append,
    List.getLast?_singleton]
  dsimp only [Option.some_or, Option.map_some]
  rw [if_pos rfl, hderef, Lib.ok_bind]
  refine ⟨_, rfl, rfl, h.replace hlt rfl h.slots ?_ (fun p hp => ?_) (fun j p hj hp => ?_) ?_ ?_ ?_⟩
  · exact (Function.update_of_ne ha0.symm ..).trans
      ((Function.update_of_ne hq0.symm ..).trans h.null)
  · dsimp only at hp
    rw [hget, Option.some.injEq] at hp
    subst hp
    exact chain_link h.null hseg hl ha k v
  · exact (h.update_other hj hp hlast hkey hlastKey _).update_fresh (hfresh _) _
  · intro key' hkey'
    rw [List.map_append, List.mem_append, List.map_singleton, List.mem_singleton] at hkey'
    rcases hkey' with hkey' | rfl
    · exact h.placed i key' hkey'
    · exact hi
  · rw [List.map_append, List.map_singleton, List.nodup_append]
    refine ⟨h.distinct i, List.nodup_singleton _, fun x hx y hy => ?_⟩
    rw [List.mem_singleton.1 hy]
    rintro rfl
    exact hk hx
  · rw [List.length_append, List.length_singleton]
    change m.length + 1 + _ = _
    omega

/-- The node of a key that is there gets the new value, and the count stays.
The search stops at the first node with the key, and no node before it has that
key. -/
theorem hashmapSet_found (h : Holds m b) (hi : slotOf m.maxSlot (cstr k) = i)
    {l₁ l₂ : List (Bytes × Bytes)} {w : Bytes} (hb : b i = l₁ ++ (cstr k, w) :: l₂)
    (hk : cstr k ∉ l₁.map Prod.fst) :
    ∃ m', hashmapSet m k v a = .ok (m', 0) ∧ m'.maxSlot = m.maxSlot ∧
      Holds m' (Function.update b i (l₁ ++ (cstr k, cstr v) :: l₂)) := by
  have hlt : i < m.maxSlot := hi ▸ h.slotOf_lt _
  obtain ⟨s, init, q, n, tail, hget, hread, hs, hseg, hinit, htail, hsearch, hq, hq0, hderef⟩ :=
    h.search_found hlt hb hk
  have hkeys : (l₁ ++ (cstr k, cstr v) :: l₂).map Prod.fst = (b i).map Prod.fst := by
    rw [hb, List.map_append, List.map_append]
    rfl
  have hkey : cstr k ∈ (b i).map Prod.fst := by simp [hb]
  have hnkey : n.key = some (cstr k) := congrArg Prod.fst (List.cons.inj htail).1
  rw [hashmapSet]
  dsimp only
  rw [hi, hread, Lib.ok_bind, if_neg hs, hsearch, Lib.ok_bind]
  dsimp only
  rw [if_neg hq0, hderef, Lib.ok_bind]
  refine ⟨_, rfl, rfl, h.replace hlt rfl h.slots ?_ (fun p hp => ?_) (fun j p hj hp => ?_) ?_ ?_ ?_⟩
  · exact (Function.update_of_ne hq0.symm ..).trans h.null
  · dsimp only at hp
    rw [hget, Option.some.injEq] at hp
    subst hp
    exact chain_overwrite h.null hseg hinit htail
  · exact h.update_other hj hp hq hkey hnkey _
  · rw [hkeys]
    exact h.placed i
  · rw [hkeys]
    exact h.distinct i
  · rw [hb]
    simp

/-- **`hashmap_set` sets the key in the list of its slot**, and says whether it
is new.  The three cases are those of the source. -/
theorem hashmapSet_holds (h : Holds m b) (ha : m.mem a = none) (ha0 : a ≠ 0) (k v : Bytes)
    (hi : slotOf m.maxSlot (cstr k) = i) :
    ∃ m', hashmapSet m k v a = .ok (m', if ((b i).lookup (cstr k)).isSome then 0 else 1) ∧
      m'.maxSlot = m.maxSlot ∧
      Holds m' (Function.update b i (Lib.Assoc.set (cstr k) (cstr v) (b i))) := by
  rcases Lib.Assoc.mem_or_exists_first (cstr k) (b i) with hnot | ⟨l₁, w, l₂, hb, hnot⟩
  · rw [Lib.Assoc.lookup_eq_none.2 hnot, Lib.Assoc.set_of_not_mem hnot]
    by_cases hempty : b i = []
    · rw [hempty]
      exact hashmapSet_empty h hi hempty ha ha0
    · exact hashmapSet_behind h hi hempty hnot ha ha0
  · rw [hb, Lib.Assoc.lookup_append_cons hnot, Lib.Assoc.set_append_cons hnot]
    exact hashmapSet_found h hi hb hnot

/-! ### `hashmap_get` -/

/-- **`hashmap_get` reads the list of the slot**: both look for the first pair
with the key. -/
theorem hashmapGet_holds (h : Holds m b) (k : Bytes) (hi : slotOf m.maxSlot (cstr k) = i) :
    hashmapGet m k = .ok ((b i).lookup (cstr k)) := by
  have hlt : i < m.maxSlot := hi ▸ h.slotOf_lt _
  rw [hashmapGet, hi]
  rcases Lib.Assoc.mem_or_exists_first (cstr k) (b i) with hnot | ⟨l₁, w, l₂, hb, hnot⟩
  · obtain ⟨s, cells, -, hread, -, -, hsearch⟩ := h.search_missing hlt hnot
    rw [hread, Lib.ok_bind, Lib.Assoc.lookup_eq_none.2 hnot]
    split_ifs
    · rfl
    · rw [hsearch]
      rfl
  · obtain ⟨s, init, q, n, tail, -, hread, hs, -, -, htail, hsearch, -, hq0, hderef⟩ :=
      h.search_found hlt hb hnot
    have hdata : n.data = some w := congrArg Prod.snd (List.cons.inj htail).1
    rw [hread, Lib.ok_bind, if_neg hs, hsearch, Lib.ok_bind]
    dsimp only
    rw [if_neg hq0, hderef, hb, Lib.Assoc.lookup_append_cons hnot, Lib.ok_bind, hdata]
    rfl

/-! ### `hashmap_del` -/

/-- The first node of the chain is deleted: the search has kept no node before
it, so the slot is written with the next one. -/
theorem hashmapDel_first (h : Holds m b) (hi : slotOf m.maxSlot (cstr k) = i)
    {l₂ : List (Bytes × Bytes)} {w : Bytes} (hb : b i = (cstr k, w) :: l₂) :
    ∃ m', hashmapDel m k = .ok (m', 1) ∧ m'.maxSlot = m.maxSlot ∧
      Holds m' (Function.update b i l₂) := by
  have hlt : i < m.maxSlot := hi ▸ h.slotOf_lt _
  obtain ⟨s, init, q, n, tail, hget, hread, hs, hseg, hinit, htail, hsearch, hq, hq0, hderef⟩ :=
    h.search_found hlt (show b i = [] ++ (cstr k, w) :: l₂ from hb) List.not_mem_nil
  rw [List.map_nil, List.map_eq_nil_iff] at hinit
  subst hinit
  obtain rfl : s = q := hseg.1
  have hkeys : (b i).map Prod.fst = cstr k :: l₂.map Prod.fst := by rw [hb, List.map_cons]
  have hkey : cstr k ∈ (b i).map Prod.fst := hkeys ▸ List.mem_cons_self ..
  have hnkey : n.key = some (cstr k) := congrArg Prod.fst (List.cons.inj htail).1
  have hdistinct := h.distinct i
  rw [hkeys, List.nodup_cons] at hdistinct
  rw [hashmapDel]
  dsimp only
  rw [hi, hread, Lib.ok_bind, if_neg hs, hsearch, Lib.ok_bind]
  dsimp only
  rw [if_neg hq0, hderef, Lib.ok_bind, if_pos rfl]
  refine ⟨_, rfl, rfl, h.replace hlt rfl ?_ ?_ (fun p hp => ?_) (fun j p hj hp => ?_) ?_
    hdistinct.2 ?_⟩
  · rw [List.length_set]
    exact h.slots
  · exact (Function.update_of_ne hq0.symm ..).trans h.null
  · dsimp only at hp
    rw [List.getElem?_set_self (by rwa [h.slots]), Option.some.injEq] at hp
    subst hp
    exact chain_tail h.null hseg htail
  · dsimp only at hp
    rw [List.getElem?_set_ne hj.symm] at hp
    exact h.update_other hj hp hq hkey hnkey _
  · exact fun key hk => h.placed i key (hkeys ▸ List.mem_cons_of_mem _ hk)
  · have hlen := h.chain_le hlt
    rw [hb, List.length_cons] at hlen ⊢
    change m.length - 1 + _ = _
    omega

/-- A node behind the first is deleted: the search has kept the one before,
which is linked to the next one. -/
theorem hashmapDel_behind (h : Holds m b) (hi : slotOf m.maxSlot (cstr k) = i)
    {l₁ l₂ : List (Bytes × Bytes)} {w : Bytes} (hb : b i = l₁ ++ (cstr k, w) :: l₂)
    (hk : cstr k ∉ l₁.map Prod.fst) (hne : l₁ ≠ []) :
    ∃ m', hashmapDel m k = .ok (m', 1) ∧ m'.maxSlot = m.maxSlot ∧
      Holds m' (Function.update b i (l₁ ++ l₂)) := by
  have hlt : i < m.maxSlot := hi ▸ h.slotOf_lt _
  obtain ⟨s, init, q, n, tail, hget, hread, hs, hseg, hinit, htail, hsearch, hq, hq0, hderef⟩ :=
    h.search_found hlt hb hk
  obtain ⟨init, ⟨r, before⟩, rfl⟩ : ∃ init' c, init = init' ++ [c] := by
    refine ⟨_, _, (List.dropLast_append_getLast fun hnil => hne ?_).symm⟩
    rw [hnil] at hinit
    exact List.map_eq_nil_iff.1 hinit.symm
  have hrmem : (r, before) ∈ init ++ [(r, before)] :=
    List.mem_append_right _ (List.mem_singleton_self _)
  have hr : m.mem r = some before := hseg.mem_eq (List.mem_append_left _ hrmem)
  obtain ⟨hr0, hderef'⟩ := deref_eq h.null hr
  obtain ⟨key, hkey, hrkey⟩ := exists_key hinit hrmem
  have hnodup := not_mem_init h.null hseg
  -- the node is not the first one
  have hqs : q ≠ s := by
    rintro rfl
    obtain ⟨c, rest, hc⟩ := List.exists_cons_of_ne_nil (List.append_ne_nil_of_right_ne_nil init
      (List.cons_ne_nil (r, before) []))
    rw [hc] at hseg hnodup
    exact hnodup.1 (List.mem_map.2 ⟨c, List.mem_cons_self .., hseg.1.symm⟩)
  have hqr : q ≠ r := fun hqr => hnodup.1 (List.mem_map.2 ⟨_, hrmem, hqr.symm⟩)
  have hsub : ((l₁ ++ l₂).map Prod.fst).Sublist ((b i).map Prod.fst) := by
    rw [hb]
    exact ((List.sublist_cons_self _ l₂).append_left l₁).map _
  have hkeys : cstr k ∈ (b i).map Prod.fst := by simp [hb]
  have hkeyl : key ∈ (b i).map Prod.fst := by
    rw [hb, List.map_append]
    exact List.mem_append_left _ hkey
  have hnkey : n.key = some (cstr k) := congrArg Prod.fst (List.cons.inj htail).1
  rw [hashmapDel]
  dsimp only
  rw [hi, hread, Lib.ok_bind, if_neg hs, hsearch, Lib.ok_bind, List.getLast?_append,
    List.getLast?_singleton]
  dsimp only [Option.some_or, Option.map_some]
  rw [if_neg hq0, hderef, Lib.ok_bind, if_neg hqs, hderef', Lib.ok_bind]
  refine ⟨_, rfl, rfl, h.replace hlt rfl h.slots ?_ (fun p hp => ?_) (fun j p hj hp => ?_)
    (fun key hk => h.placed i key (hsub.subset hk)) ((h.distinct i).sublist hsub) ?_⟩
  · exact (Function.update_of_ne hq0.symm ..).trans
      ((Function.update_of_ne hr0.symm ..).trans h.null)
  · dsimp only at hp
    rw [hget, Option.some.injEq] at hp
    subst hp
    exact chain_unlink h.null hseg hinit htail
  · refine (h.update_other hj hp hr hkeyl hrkey _).update _ fun node hnode key' hkey' he => ?_
    rw [Function.update_of_ne hqr, hq, Option.some.injEq] at hnode
    subst hnode
    rw [hnkey, Option.some.injEq] at he
    subst he
    exact hj ((h.placed j _ hkey').symm.trans hi)
  · have hlen := h.chain_le hlt
    rw [hb, List.length_append, List.length_cons] at hlen ⊢
    rw [List.length_append]
    change m.length - 1 + _ = _
    omega

/-- **`hashmap_del` takes the key out of the list of its slot**, and says
whether it was there. -/
theorem hashmapDel_holds (h : Holds m b) (k : Bytes) (hi : slotOf m.maxSlot (cstr k) = i) :
    ∃ m', hashmapDel m k = .ok (m', if ((b i).lookup (cstr k)).isSome then 1 else 0) ∧
      m'.maxSlot = m.maxSlot ∧ Holds m' (Function.update b i (Lib.Assoc.erase (cstr k) (b i))) := by
  have hlt : i < m.maxSlot := hi ▸ h.slotOf_lt _
  rcases Lib.Assoc.mem_or_exists_first (cstr k) (b i) with hnot | ⟨l₁, w, l₂, hb, hnot⟩
  · rw [Lib.Assoc.lookup_eq_none.2 hnot, Lib.Assoc.erase_of_not_mem hnot,
      Function.update_eq_self]
    refine ⟨m, ?_, rfl, h⟩
    obtain ⟨s, cells, -, hread, -, -, hsearch⟩ := h.search_missing hlt hnot
    rw [hashmapDel]
    dsimp only
    rw [hi, hread, Lib.ok_bind]
    by_cases hs : s = 0
    · rw [if_pos hs]
      rfl
    · rw [if_neg hs, hsearch]
      rfl
  · rw [hb, Lib.Assoc.lookup_append_cons hnot, Lib.Assoc.erase_append_cons hnot]
    by_cases hnil : l₁ = []
    · subst hnil
      exact hashmapDel_first h hi hb
    · exact hashmapDel_behind h hi hb hnot hnil

end Hashmap
end Dukserver
