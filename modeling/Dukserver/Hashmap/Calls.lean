/-
# The hash map after any calls

The iterator meets the pairs of the first slot that is not empty, then those of the next;
it stops inside the slots because the length says whether there is anything to meet.  With
the three functions of `Hashmap.Chains` and the buckets of `Lib.History`, a table is after
any calls the finite map that the calls say.
-/

import Dukserver.Hashmap.Chains
import Dukserver.Lib.Machine

namespace Dukserver
namespace Hashmap

open Http (Fault)
open Lib (Bytes cstr Machine)
open Lib.Linked (Seg)
open Lib.History (Op latest bucket)

variable {m : HashmapT} {b : ℕ → List (Bytes × Bytes)} {mem : Memory} {p i n fuel : ℕ}
  {cells : Cells} {l : List (Bytes × Bytes)} {c : ℕ × HashmapList}

/-! ### The chains as they are printed -/

/-- The keys of a chain are printed, node by node, by induction on the chain; a
counter that is longer than it does not run out. -/
theorem dumpChain_seg (hnull : mem 0 = none) (h : Seg HashmapList.next mem p cells 0)
    (hfuel : cells.length < fuel) :
    dumpChain mem fuel p = .ok (cells.map fun c => c.2.key) := by
  induction cells generalizing p fuel with
  | nil =>
    obtain rfl : p = 0 := h
    obtain ⟨fuel, rfl⟩ := Nat.exists_eq_succ_of_ne_zero (Nat.ne_zero_of_lt hfuel)
    rfl
  | cons c cells ih =>
    obtain ⟨rfl, hc, hrest⟩ := h
    obtain ⟨hne, hderef⟩ := deref_eq hnull hc
    obtain ⟨fuel, rfl⟩ := Nat.exists_eq_succ_of_ne_zero (Nat.ne_zero_of_lt hfuel)
    rw [dumpChain, if_neg hne, hderef, Lib.ok_bind, ih hrest (Nat.lt_of_succ_lt_succ hfuel)]
    rfl

/-- `hashmap_dump` prints the keys of each slot.  It follows the chains without
a bound of its own, so that it ends at all is that each chain ends in `NULL`. -/
theorem hashmapDump_holds (h : Holds m b) : hashmapDump m =
    .ok ((List.range m.maxSlot).map fun i => ((b i).map Prod.fst).map some) := by
  refine Lib.mapM_ok fun i hi => ?_
  obtain ⟨s, cells, -, hread, hseg, hl, hlen⟩ := h.exists_slot (List.mem_range.1 hi)
  rw [hread, Lib.ok_bind, dumpChain_seg h.null hseg (Nat.lt_succ_of_le hlen)]
  have hkeys := congrArg (List.map Prod.fst) hl
  rw [List.map_map, List.map_map] at hkeys
  rw [List.map_map]
  exact congrArg _ hkeys

/-! ### The iterator -/

/-- The slots from `i` on. -/
def pairsFrom (m : HashmapT) (b : ℕ → List (Bytes × Bytes)) (i : ℕ) : List (Bytes × Bytes) :=
  (List.range' i (m.maxSlot - i)).flatMap b

/-- The pairs from a slot on are its own and those of the slots behind. -/
theorem pairsFrom_succ (hi : i < m.maxSlot) : pairsFrom m b i = b i ++ pairsFrom m b (i + 1) := by
  rw [pairsFrom, show m.maxSlot - i = m.maxSlot - (i + 1) + 1 by omega, List.range'_succ,
    List.flatMap_cons]
  rfl

/-- Behind the last slot there are none. -/
theorem pairsFrom_end : pairsFrom m b m.maxSlot = [] := by
  rw [pairsFrom, Nat.sub_self]
  rfl

/-- The search for a slot stops at the next one that has a pair: those it passes
have none. -/
theorem nextSlot_holds (h : Holds m b) (hn : i + n = m.maxSlot) :
    ∃ j, nextSlot m.slot i n = .ok j ∧
      (j = m.maxSlot ∧ pairsFrom m b i = [] ∨
        j < m.maxSlot ∧ b j ≠ [] ∧ pairsFrom m b i = pairsFrom m b j) := by
  induction n generalizing i with
  | zero =>
    obtain rfl : i = m.maxSlot := hn
    exact ⟨_, rfl, .inl ⟨rfl, pairsFrom_end⟩⟩
  | succ n ih =>
    have hi : i < m.maxSlot := by omega
    obtain ⟨s, cells, -, hread, hseg, hl, -⟩ := h.exists_slot hi
    rw [nextSlot, hread, Lib.ok_bind]
    by_cases hs : s = 0
    · have hempty : b i = [] := by
        cases cells with
        | nil => exact List.map_eq_nil_iff.1 hl.symm
        | cons c cells => exact absurd hs (ne_zero_of_seg h.null hseg (by simp))
      rw [if_pos hs, pairsFrom_succ hi, hempty, List.nil_append]
      exact ih (by omega)
    · have hne : b i ≠ [] := by
        intro hempty
        rw [hempty, List.map_nil, List.map_eq_nil_iff] at hl
        subst hl
        exact hs hseg
      rw [if_neg hs]
      exact ⟨i, rfl, .inr ⟨hi, hne, rfl⟩⟩

/-- The iterator at a node. -/
def iterAt (m : HashmapT) (i : ℕ) (c : ℕ × HashmapList) : HashmapIter :=
  ⟨m, i, c.1, c.2.key, c.2.data⟩

/-- The iterator enters a chain at its first node.  The chain is not empty here:
the search for the next slot has passed over those that are. -/
theorem enterSlot_holds (h : Holds m b) (hi : i < m.maxSlot) (hne : b i ≠ [])
    (iter : HashmapIter) (hm : iter.m = m) : ∃ c cells, enterSlot iter i = .ok (iterAt m i c) ∧
      Seg HashmapList.next m.mem c.1 (c :: cells) 0 ∧
      (c :: cells).map content = (b i).map stored := by
  obtain ⟨s, cells, -, hread, hseg, hl, -⟩ := h.exists_slot hi
  cases cells with
  | nil => exact absurd (List.map_eq_nil_iff.1 hl.symm) hne
  | cons c cells =>
    obtain ⟨rfl, hc, hrest⟩ := hseg
    refine ⟨c, cells, ?_, ⟨rfl, hc, hrest⟩, hl⟩
    rw [enterSlot, hm, hread, Lib.ok_bind, (deref_eq h.null hc).2]
    rfl

/-- It goes from a node to the next one of the chain.  Only behind the last one
does it look at the slots again. -/
theorem hashmapNext_cell (h : Holds m b) {d : ℕ × HashmapList} {key : Bytes}
    (hseg : Seg HashmapList.next m.mem c.1 (c :: d :: cells) 0) (hkey : c.2.key = some key) :
    hashmapNext (iterAt m i c) = .ok (iterAt m i d) ∧
      Seg HashmapList.next m.mem d.1 (d :: cells) 0 := by
  obtain ⟨-, hc, hnext, hd, hrest⟩ := hseg
  obtain ⟨hne, hderef⟩ := deref_eq h.null hd
  refine ⟨?_, rfl, hd, hrest⟩
  rw [hashmapNext, iterAt, hkey, if_neg (by simp)]
  dsimp only
  rw [(deref_eq h.null hc).2, Lib.ok_bind, hnext, if_neg hne, hderef]
  rfl

/-- Behind the last node of a chain it ends, or enters a further one at its
first node. -/
theorem hashmapNext_slot (h : Holds m b) {key : Bytes} (hi : i < m.maxSlot)
    (hseg : Seg HashmapList.next m.mem c.1 [c] 0) (hkey : c.2.key = some key) :
    (∃ iter, hashmapNext (iterAt m i c) = .ok iter ∧ hashmapValid iter = false ∧
      pairsFrom m b (i + 1) = []) ∨
    ∃ j d cells, hashmapNext (iterAt m i c) = .ok (iterAt m j d) ∧ j < m.maxSlot ∧
      Seg HashmapList.next m.mem d.1 (d :: cells) 0 ∧
      (d :: cells).map content = (b j).map stored ∧
      pairsFrom m b (i + 1) = b j ++ pairsFrom m b (j + 1) := by
  obtain ⟨-, hc, hlast⟩ := hseg
  have hnext : c.2.next = 0 := hlast
  obtain ⟨j, hj, hcases⟩ := nextSlot_holds h (i := i + 1) (n := m.maxSlot - (i + 1)) (by omega)
  have hstep : hashmapNext (iterAt m i c) =
      if j = m.maxSlot then .ok { iterAt m i c with key := none, data := none }
      else enterSlot (iterAt m i c) j := by
    rw [hashmapNext, iterAt, hkey, if_neg (by simp)]
    dsimp only
    rw [(deref_eq h.null hc).2, Lib.ok_bind, if_pos hnext, hj]
    rfl
  rcases hcases with ⟨hend, hnil⟩ | ⟨hlt, hne, hpairs⟩
  · rw [if_pos hend] at hstep
    exact .inl ⟨_, hstep, rfl, hnil⟩
  · obtain ⟨d, cells, henter, hd⟩ := enterSlot_holds h hlt hne (iterAt m i c) rfl
    rw [if_neg hlt.ne, henter] at hstep
    exact .inr ⟨j, d, cells, hstep, hlt, hd.1, hd.2, hpairs.trans (pairsFrom_succ hlt)⟩

/-- The rounds from a node on see the rest of its chain and the slots behind, by
induction on what is left to see. -/
theorem rounds_holds (h : Holds m b) (hi : i < m.maxSlot)
    (hseg : Seg HashmapList.next m.mem c.1 (c :: cells) 0)
    (hl : (c :: cells).map content = l.map stored)
    (hfuel : l.length + (pairsFrom m b (i + 1)).length < fuel) :
    rounds fuel (iterAt m i c) = .ok ((l ++ pairsFrom m b (i + 1)).map stored) := by
  induction fuel generalizing i c cells l with
  | zero => omega
  | succ fuel ih =>
    cases l with
    | nil => cases hl
    | cons pair l =>
      rw [List.map_cons, List.map_cons] at hl
      obtain ⟨hpair, hl⟩ := List.cons.inj hl
      have hkey : c.2.key = some pair.1 := congrArg Prod.fst hpair
      rw [List.length_cons] at hfuel
      have hvalid : hashmapValid (iterAt m i c) = true := by rw [hashmapValid, iterAt, hkey]; rfl
      -- the pair is seen, and then the rounds from where `hashmap_next` leads
      have hround : ∀ iter rest, hashmapNext (iterAt m i c) = .ok iter →
          rounds fuel iter = .ok (rest.map stored) →
          rounds (fuel + 1) (iterAt m i c) = .ok ((pair :: rest).map stored) := by
        intro iter rest hiter hrest
        rw [rounds, if_pos hvalid, hiter, Lib.ok_bind, hrest, Lib.ok_bind, List.map_cons, ← hpair]
        rfl
      cases cells with
      | cons d cells =>
        obtain ⟨hnext, hd⟩ := hashmapNext_cell h hseg hkey
        exact hround _ _ hnext (ih hi hd hl (by omega))
      | nil =>
        obtain rfl : l = [] := List.map_eq_nil_iff.1 hl.symm
        rcases hashmapNext_slot h hi hseg hkey with
          ⟨iter, hnext, hend, hnil⟩ | ⟨j, d, cells, hnext, hj, hd, hdl, hpairs⟩
        · rw [hnil]
          refine hround _ _ hnext ?_
          obtain ⟨fuel, rfl⟩ := Nat.exists_eq_succ_of_ne_zero (n := fuel) (by omega)
          rw [rounds, hend, if_neg Bool.false_ne_true]
          rfl
        · rw [hpairs] at hfuel ⊢
          rw [List.length_append] at hfuel
          exact hround _ _ hnext (ih hj hd hdl (by omega))

/-- **The loop over the table sees the pairs of the slots in their order**, and
never reads behind the slots. -/
theorem visit_holds (h : Holds m b) :
    visit m = .ok (((List.range m.maxSlot).flatMap b).map stored) := by
  have hall : (List.range m.maxSlot).flatMap b = pairsFrom m b 0 := by
    rw [pairsFrom, List.range_eq_range', Nat.sub_zero]
  have hlength := h.length
  rw [hall] at hlength ⊢
  rw [visit, hashmapBegin]
  by_cases hzero : m.length = 0
  · rw [hzero] at hlength
    rw [List.length_eq_zero_iff.1 hlength.symm, if_pos hzero]
    rfl
  · rw [if_neg hzero]
    obtain ⟨j, hj, ⟨-, hnil⟩ | ⟨hlt, hne, hpairs⟩⟩ := nextSlot_holds h (Nat.zero_add m.maxSlot)
    · rw [hnil] at hlength
      exact absurd hlength hzero
    · obtain ⟨d, cells, henter, hd, hdl⟩ :=
        enterSlot_holds h hlt hne ⟨m, 0, 0, none, none⟩ rfl
      rw [hj, Lib.ok_bind, henter, Lib.ok_bind, hpairs, pairsFrom_succ hlt]
      refine rounds_holds h hlt hd hdl ?_
      rw [hpairs, pairsFrom_succ hlt, List.length_append] at hlength
      omega

/-! ### Any calls -/

/-- A call that changes the table; `a` is what `malloc` answers if it needs a
node. -/
inductive Call
  | set (k v : Bytes) (a : ℕ)
  | del (k : Bytes)
  deriving DecidableEq, Repr

/-- What the functions see of the strings of a call. -/
def Call.op : Call → Op Bytes Bytes
  | .set k v _ => .set (cstr k) (cstr v)
  | .del k => .erase (cstr k)

/-- The call. -/
def call (m : HashmapT) : Call → Except Fault HashmapT
  | .set k v a => do return (← hashmapSet m k v a).1
  | .del k => do return (← hashmapDel m k).1

/-- `malloc` succeeds, and what it answers is not allocated. -/
def Answers (m : HashmapT) : Call → Prop
  | .set _ _ a => a ≠ 0 ∧ m.mem a = none
  | .del _ => True

instance (m : HashmapT) : (c : Call) → Decidable (Answers m c)
  | .set _ _ a => inferInstanceAs (Decidable (a ≠ 0 ∧ m.mem a = none))
  | .del _ => inferInstanceAs (Decidable True)

/-- Any calls on a table, one after the other. -/
def calls : Machine (Except Fault HashmapT) Call where
  Enabled s c := match s with
    | .ok m => Answers m c
    | .error _ => True
  next s c := s >>= fun m => call m c

instance : (s : Except Fault HashmapT) → (c : Call) → Decidable (calls.Enabled s c)
  | .ok m, c => inferInstanceAs (Decidable (Answers m c))
  | .error _, _ => inferInstanceAs (Decidable True)

/-- The table is the finite map that `ops` leave. -/
structure Behaves (m : HashmapT) (ops : List (Op Bytes Bytes)) : Prop where
  /-- Each key is in the chain of its slot, once in the whole table, and
  counted. -/
  placed : ∃ chains : List (List Bytes),
    hashmapDump m = .ok (chains.map fun keys => keys.map some) ∧
    chains.length = m.maxSlot ∧
    (∀ i keys, chains[i]? = some keys → ∀ k ∈ keys, (crc16 k).toNat % m.maxSlot = i) ∧
    chains.flatten.Nodup ∧ (∀ k, k ∈ chains.flatten ↔ (latest k ops).isSome) ∧
    m.length = chains.flatten.length
  /-- Setting a key answers 1 exactly if it is new. -/
  set : ∀ k v a, Answers m (.set k v a) →
    ∃ m', hashmapSet m k v a = .ok (m', if (latest (cstr k) ops).isSome then 0 else 1)
  /-- A key has the value it was last set to. -/
  get : ∀ k, hashmapGet m k = .ok (latest (cstr k) ops)
  /-- Deleting a key answers 1 exactly if it is there, and leaves the others. -/
  del : ∀ k, ∃ m', hashmapDel m k = .ok (m', if (latest (cstr k) ops).isSome then 1 else 0) ∧
    ∀ j, cstr j ≠ cstr k → hashmapGet m' j = hashmapGet m j
  /-- The loop sees each pair that is there once. -/
  visits : ∃ l : List (Bytes × Bytes), visit m = .ok (l.map fun p => (some p.1, some p.2)) ∧
    (l.map Prod.fst).Nodup ∧ ∀ k v, (k, v) ∈ l ↔ latest k ops = some v

/-- A new table holds nothing: every slot is `NULL`, and the number of slots is
a power of two. -/
theorem hashmapCreate_holds (maxSlot : ℤ) : Holds (hashmapCreate maxSlot) fun _ => [] where
  pos := by
    have hpos := slotCount_pos maxSlot
    rw [hashmapCreate]
    dsimp only
    omega
  slots := List.length_replicate
  null := rfl
  chains i p hp := by
    rw [hashmapCreate] at hp
    have hzero : p = 0 := List.eq_of_mem_replicate (List.mem_of_getElem? hp)
    exact ⟨[], hzero, rfl⟩
  placed i k hk := absurd hk List.not_mem_nil
  distinct i := List.nodup_nil
  length := by
    rw [List.flatMap_eq_nil_iff.2 fun _ _ => rfl]
    rfl

/-- The buckets of a table after some calls. -/
abbrev left (m : HashmapT) (ops : List (Op Bytes Bytes)) : ℕ → List (Bytes × Bytes) :=
  bucket (slotOf m.maxSlot) ops

/-- **A call is the one on the buckets**: it changes the bucket of its key, and
answers from it. -/
theorem call_holds {ops : List (Op Bytes Bytes)} (h : Holds m (left m ops)) {o : Call}
    (ho : Answers m o) : ∃ m', call m o = .ok m' ∧ m'.maxSlot = m.maxSlot ∧
      Holds m' (left m' (ops ++ [o.op])) := by
  cases o with
  | set k v a =>
    obtain ⟨m', hm', hmax, hholds⟩ := hashmapSet_holds h ho.2 ho.1 k v rfl
    refine ⟨m', by rw [call, hm']; rfl, hmax, ?_⟩
    rw [left, hmax, Lib.History.bucket_concat]
    exact hholds
  | del k =>
    obtain ⟨m', hm', hmax, hholds⟩ := hashmapDel_holds h k rfl
    refine ⟨m', by rw [call, hm']; rfl, hmax, ?_⟩
    rw [left, hmax, Lib.History.bucket_concat]
    exact hholds

/-- What a table holds is all that its functions see of it: the slots for
`hashmap_dump`, the bucket of its key for `hashmap_get`, and all of them for the
iterator. -/
theorem behaves_of_holds {ops : List (Op Bytes Bytes)} (h : Holds m (left m ops)) :
    Behaves m ops where
  placed := by
    have hkeys : ((List.range m.maxSlot).map fun i => (left m ops i).map Prod.fst).flatten =
        ((List.range m.maxSlot).flatMap (left m ops)).map Prod.fst := by
      rw [List.map_flatMap, List.flatMap]
    refine ⟨(List.range m.maxSlot).map fun i => (left m ops i).map Prod.fst, ?_, ?_, ?_, ?_, ?_, ?_⟩
    · rw [hashmapDump_holds h, List.map_map]
      rfl
    · rw [List.length_map, List.length_range]
    · intro i keys hkeys k hk
      rw [List.getElem?_map, Option.map_eq_some_iff] at hkeys
      obtain ⟨j, hj, rfl⟩ := hkeys
      obtain ⟨hlt, rfl⟩ := List.getElem?_eq_some_iff.1 hj
      rw [List.getElem_range] at hk
      exact h.placed i k hk
    · rw [hkeys]
      exact Lib.History.nodup_keys_buckets
    · intro k
      rw [hkeys, List.mem_map, Option.isSome_iff_exists]
      constructor
      · rintro ⟨⟨_, v⟩, hmem, rfl⟩
        exact ⟨v, (Lib.History.mem_buckets h.slotOf_lt).1 hmem⟩
      · rintro ⟨v, hv⟩
        exact ⟨(k, v), (Lib.History.mem_buckets h.slotOf_lt).2 hv, rfl⟩
    · rw [hkeys, List.length_map]
      exact h.length
  set k v a ha := by
    obtain ⟨m', hm', -⟩ := hashmapSet_holds h ha.2 ha.1 k v rfl
    rw [Lib.History.lookup_bucket] at hm'
    exact ⟨m', hm'⟩
  get k := by rw [hashmapGet_holds h k rfl, Lib.History.lookup_bucket]
  del k := by
    obtain ⟨m', hm', hmax, hholds⟩ := hashmapDel_holds h k rfl
    rw [Lib.History.lookup_bucket] at hm'
    refine ⟨m', hm', fun j hj => ?_⟩
    rw [hashmapGet_holds hholds j (by rw [hmax]), hashmapGet_holds h j rfl]
    by_cases hslot : slotOf m.maxSlot (cstr j) = slotOf m.maxSlot (cstr k)
    · rw [hslot, Function.update_self, Lib.Assoc.lookup_erase_of_ne hj]
    · rw [Function.update_of_ne hslot]
  visits := ⟨_, visit_holds h, Lib.History.nodup_keys_buckets,
    fun _ _ => Lib.History.mem_buckets h.slotOf_lt⟩

/-- **After any calls the table is the finite map that they say.**  Every call
keeps that the slots hold the buckets, so this is the induction over the calls. -/
theorem calls_behave (maxSlot : ℤ) {tr : List Call} {s : Except Fault HashmapT}
    (hrun : calls.Run (.ok (hashmapCreate maxSlot)) tr s) :
    ∃ m, s = .ok m ∧ m.maxSlot = (slotCount maxSlot).toNat ∧ Behaves m (tr.map Call.op) := by
  suffices h : ∃ m, s = .ok m ∧ m.maxSlot = (slotCount maxSlot).toNat ∧
      Holds m (left m (tr.map Call.op)) by
    obtain ⟨m, hm, hmax, hholds⟩ := h
    exact ⟨m, hm, hmax, behaves_of_holds hholds⟩
  refine Lib.Machine.run_induction
    (P := fun tr s => ∃ m, s = .ok m ∧ m.maxSlot = (slotCount maxSlot).toNat ∧
      Holds m (left m (tr.map Call.op)))
    ⟨_, rfl, rfl, hashmapCreate_holds maxSlot⟩ ?_ hrun
  rintro tr s o - ⟨m, rfl, hmax, hholds⟩ ho
  obtain ⟨m', hm', hmax', hholds'⟩ := call_holds hholds ho
  refine ⟨m', hm', hmax'.trans hmax, ?_⟩
  rwa [List.map_append, List.map_singleton]

/-- Two keys of one slot; the first is deleted and comes back behind the other. -/
def collision : List Call :=
  [.set [97] [49] 1, .set [98] [50] 2, .del [97], .set [97] [51] 1]

/-- The hypothesis is satisfiable, for two keys of one slot. -/
theorem calls_behave_collision :
    (∃ m, calls.exec (.ok (hashmapCreate 0)) collision = .ok m ∧
      m.maxSlot = (slotCount 0).toNat ∧ Behaves m (collision.map Call.op)) ∧
    calls.exec (.ok (hashmapCreate 0)) collision >>= visit =
      .ok [(some [98], some [50]), (some [97], some [51])] :=
  ⟨calls_behave 0 (Lib.Machine.run_iff_exec.2 ⟨by decide, rfl⟩), by decide⟩

end Hashmap
end Dukserver
