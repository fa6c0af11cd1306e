/-
# The ledger of allocated blocks

`libhttpd/http_sys_linux.c`.  Each block of `http_malloc_` has an entry in an array of
fixed length, where a `NULL` pointer marks a free entry; a call that finds no entry ends
the process.  `http_realloc_` of `NULL` finds the first free entry and so takes it, which
is what `malloc` does.

What is allocated is what `Lib.Assoc` makes of the calls, with the answers of `malloc` and
`realloc` in the labels, and `run_exact` says that the ledger is exact after any calls.
Locking the mutex succeeds, so the calls of several threads come one after the other.  The
place of a call is left out.
-/

import Dukserver.Lib.Assoc
import Dukserver.Lib.Bytes
import Dukserver.Lib.Machine
import Mathlib.Algebra.BigOperators.Group.List.Basic

namespace Dukserver
namespace Sys

open Lib (Machine toInt32)

/-- `_http_memory_t`. -/
structure HttpMemory where
  p : ℕ
  size : ℤ
  deriving DecidableEq, Repr

/-- `_memory_len`. -/
def MEMORY_LEN : ℕ := 10 * 1024

/-- `_memory_map`. -/
abbrev MemoryMap := List HttpMemory

/-- The calls of `exit(-1)`. -/
inductive Exit
  /-- `Error: memory map full!` -/
  | memoryMapFull
  /-- `Error: realloc %p not exist in memory map!` -/
  | reallocNotExist (p : ℕ)
  /-- `Error: free %p not exist in memory map!` -/
  | freeNotExist (p : ℕ)
  deriving DecidableEq, Repr

/-- `http_init`. -/
def httpInit : MemoryMap := List.replicate MEMORY_LEN ⟨0, 0⟩

/-- The loop that looks for the entry of `p`; `none` if it reaches
`_memory_len`. -/
def findEntry (map : MemoryMap) (p : ℕ) : Option ℕ := map.findIdx? fun e => e.p == p

/-- `http_malloc_`, where `malloc` answers `a`. -/
def httpMalloc_ (map : MemoryMap) (size : ℤ) (a : ℕ) : Except Exit MemoryMap :=
  match findEntry map 0 with
  | none => .error .memoryMapFull
  | some i => .ok (map.set i ⟨a, size⟩)

/-- `http_realloc_`, where `realloc` answers `a`. -/
def httpRealloc_ (map : MemoryMap) (p : ℕ) (size : ℤ) (a : ℕ) : Except Exit MemoryMap :=
  match findEntry map p with
  | none => .error (.reallocNotExist p)
  | some i => .ok (map.set i ⟨a, size⟩)

/-- `http_free_`. -/
def httpFree_ (map : MemoryMap) (p : ℕ) : Except Exit MemoryMap :=
  if p = 0 then .ok map
  else match findEntry map p with
    | none => .error (.freeNotExist p)
    | some i => .ok (map.set i ⟨0, 0⟩)

/-- `http_memory_usage`. -/
def httpMemoryUsage (map : MemoryMap) : ℤ :=
  map.foldl (fun size e => if e.p = 0 then size else toInt32 (size + e.size)) 0

/-- The entries whose pointer is not `NULL`. -/
def live (map : MemoryMap) : List (ℕ × ℤ) :=
  (map.filter fun e => e.p != 0).map fun e => (e.p, e.size)

/-! ### One call -/

variable {map map' : MemoryMap} {p a : ℕ} {size n : ℤ} {rest : List (ℕ × ℤ)}

/-- The live blocks of the entries, one part of the array after the other. -/
theorem live_append : live (map ++ map') = live map ++ live map' := by
  rw [live, List.filter_append, List.map_append]
  rfl

/-- An entry with `NULL` is free. -/
theorem live_cons_null {e : HttpMemory} (he : e.p = 0) : live (e :: map) = live map := by
  rw [live, List.filter_cons_of_neg (by simp [he])]
  rfl

/-- Any other is a block. -/
theorem live_cons {e : HttpMemory} (he : e.p ≠ 0) :
    live (e :: map) = (e.p, e.size) :: live map := by
  rw [live, List.filter_cons_of_pos (by simpa using he)]
  rfl

/-- The loop stops at the first entry with the pointer, or there is none.  In
the first case the map is cut there, and setting the entry changes nothing else. -/
theorem findEntry_cases (map : MemoryMap) (p : ℕ) :
    (findEntry map p = none ∧ ∀ e ∈ map, e.p ≠ p) ∨
    ∃ before e after, map = before ++ e :: after ∧ e.p = p ∧
      ∃ i, findEntry map p = some i ∧ ∀ e', map.set i e' = before ++ e' :: after := by
  cases h : findEntry map p with
  | none =>
    refine .inl ⟨rfl, fun e he => ?_⟩
    simpa using List.findIdx?_eq_none_iff.1 h e he
  | some i =>
    obtain ⟨hi, hp, -⟩ := List.findIdx?_eq_some_iff_getElem.1 h
    refine .inr ⟨map.take i, map[i], map.drop (i + 1), ?_, eq_of_beq hp, i, rfl, fun e' => ?_⟩
    · rw [← List.drop_eq_getElem_cons hi, List.take_append_drop]
    · exact List.set_eq_take_append_cons_drop ▸ if_pos hi

/-- A free entry takes a new block, and the others stay.  There is one as long
as fewer blocks are live than the map has entries. -/
theorem exists_free (hfree : (live map).length < map.length) (size : ℤ) (ha : a ≠ 0) :
    ∃ i, findEntry map 0 = some i ∧ (live (map.set i ⟨a, size⟩)).Perm ((a, size) :: live map) := by
  rcases findEntry_cases map 0 with ⟨-, hnone⟩ | ⟨before, e, after, rfl, he, i, hi, hset⟩
  · have hall : map.filter (fun e => e.p != 0) = map :=
      List.filter_eq_self.2 fun e hmem => by simpa using hnone e hmem
    rw [live, hall, List.length_map] at hfree
    exact absurd hfree (lt_irrefl _)
  · refine ⟨i, hi, ?_⟩
    rw [hset, live_append, live_append, live_cons_null he, live_cons ha]
    exact List.perm_middle

/-- The entry of a live block is found.  It can be cleared, or given to another
block. -/
theorem exists_entry (hlive : (live map).Perm ((p, n) :: rest)) (hp : p ∉ rest.map Prod.fst)
    (hp0 : p ≠ 0) : ∃ i, findEntry map p = some i ∧ (live (map.set i ⟨0, 0⟩)).Perm rest ∧
      ∀ a size, a ≠ 0 → (live (map.set i ⟨a, size⟩)).Perm ((a, size) :: rest) := by
  rcases findEntry_cases map p with ⟨-, hnone⟩ | ⟨before, e, after, rfl, he, i, hi, hset⟩
  · have hmem : (p, n) ∈ live map := hlive.mem_iff.2 (List.mem_cons_self ..)
    obtain ⟨e, hemem, he⟩ := List.mem_map.1 hmem
    exact absurd (congrArg Prod.fst he) (hnone e (List.mem_filter.1 hemem).1)
  · have hothers : (live (before ++ after)).Perm rest := by
      rw [live_append, live_cons (he ▸ hp0)] at hlive
      have hsplit := List.perm_middle.symm.trans hlive
      have hsize : (e.p, e.size) = (p, n) := by
        rcases List.mem_cons.1 (hlive.mem_iff.1 (List.mem_append_right _ (List.mem_cons_self ..)))
          with hsame | hrest
        · exact hsame
        · exact absurd (List.mem_map.2 ⟨_, hrest, he⟩) hp
      rw [hsize] at hsplit
      rw [live_append]
      exact hsplit.cons_inv
    refine ⟨i, hi, ?_, fun a size ha => ?_⟩
    · rw [hset, live_append, live_cons_null rfl, ← live_append]
      exact hothers
    · rw [hset, live_append, live_cons ha]
      exact List.perm_middle.trans ((live_append ▸ hothers).cons _)

/-- **`http_malloc_` adds a block**, as long as an entry is free. -/
theorem httpMalloc_live (hfree : (live map).length < map.length) (size : ℤ) (ha : a ≠ 0) :
    ∃ map', httpMalloc_ map size a = .ok map' ∧ map'.length = map.length ∧
      (live map').Perm ((a, size) :: live map) := by
  obtain ⟨i, hi, hperm⟩ := exists_free hfree size ha
  rw [httpMalloc_, hi]
  exact ⟨_, rfl, List.length_set, hperm⟩

/-- **`http_realloc_` replaces a block**, in the same entry.  The others stay,
and there are as many as before. -/
theorem httpRealloc_live (hlive : (live map).Perm ((p, n) :: rest)) (hp : p ∉ rest.map Prod.fst)
    (hp0 : p ≠ 0) (size : ℤ) (ha : a ≠ 0) :
    ∃ map', httpRealloc_ map p size a = .ok map' ∧ map'.length = map.length ∧
      (live map').Perm ((a, size) :: rest) := by
  obtain ⟨i, hi, -, hperm⟩ := exists_entry hlive hp hp0
  rw [httpRealloc_, hi]
  exact ⟨_, rfl, List.length_set, hperm a size ha⟩

/-- **`http_realloc_` of `NULL` is `http_malloc_`**, as long as there is a free
entry: the entry it looks for is the first one with `NULL`. -/
theorem httpRealloc_null (hfree : (live map).length < map.length) (size : ℤ) (ha : a ≠ 0) :
    httpRealloc_ map 0 size a = httpMalloc_ map size a := by
  obtain ⟨i, hi, -⟩ := exists_free hfree size ha
  rw [httpRealloc_, httpMalloc_, hi]

/-- **`http_free_` takes a block out**, and its entry is free again. -/
theorem httpFree_live (hlive : (live map).Perm ((p, n) :: rest)) (hp : p ∉ rest.map Prod.fst)
    (hp0 : p ≠ 0) : ∃ map', httpFree_ map p = .ok map' ∧ map'.length = map.length ∧
      (live map').Perm rest := by
  obtain ⟨i, hi, hperm, -⟩ := exists_entry hlive hp hp0
  rw [httpFree_, if_neg hp0, hi]
  exact ⟨_, rfl, List.length_set, hperm⟩

/-- A block that is not live ends the process: no entry has its address. -/
theorem httpFree_not_live (hp : p ∉ (live map).map Prod.fst) (hp0 : p ≠ 0) :
    httpFree_ map p = .error (.freeNotExist p) := by
  rcases findEntry_cases map p with ⟨hnone, -⟩ | ⟨before, e, after, rfl, he, -⟩
  · rw [httpFree_, if_neg hp0, hnone]
  · refine absurd ?_ hp
    rw [live_append, live_cons (he ▸ hp0), List.map_append, List.map_cons]
    exact List.mem_append_right _ (he ▸ List.mem_cons_self ..)

/-- The usage is the sum of the sizes, as an `int`; free entries have the size
0. -/
theorem httpMemoryUsage_eq (map : MemoryMap) :
    httpMemoryUsage map = toInt32 ((live map).map Prod.snd).sum := by
  have hfold : ∀ (map : MemoryMap) (z : ℤ),
      map.foldl (fun size e => if e.p = 0 then size else toInt32 (size + e.size)) (toInt32 z) =
        toInt32 (z + ((live map).map Prod.snd).sum) := by
    intro map
    induction map with
    | nil =>
      intro z
      rw [live, List.filter_nil, List.map_nil, List.map_nil, List.sum_nil, add_zero]
      rfl
    | cons e map ih =>
      intro z
      rw [List.foldl_cons]
      by_cases he : e.p = 0
      · rw [if_pos he, live_cons_null he, ih]
      · have hwrap : toInt32 (toInt32 z + e.size) = toInt32 (z + e.size) := Int.bmod_add_bmod
        rw [if_neg he, live_cons he, hwrap, ih, List.map_cons, List.sum_cons, add_assoc]
  have hzero := hfold map 0
  rw [zero_add] at hzero
  exact hzero

/-! ### Any calls -/

/-- A call; `a` is what `malloc` or `realloc` answers. -/
inductive Call
  | malloc (size : ℤ) (a : ℕ)
  | realloc (p : ℕ) (size : ℤ) (a : ℕ)
  | free (p : ℕ)
  deriving DecidableEq, Repr

/-- What is allocated after a call, each block with its latest size. -/
def Call.blocks (blocks : List (ℕ × ℤ)) : Call → List (ℕ × ℤ)
  | .malloc size a => Lib.Assoc.set a size blocks
  | .realloc p size a => Lib.Assoc.set a size (Lib.Assoc.erase p blocks)
  | .free p => Lib.Assoc.erase p blocks

/-- The call on the ledger. -/
def Call.ledger (map : MemoryMap) : Call → Except Exit MemoryMap
  | .malloc size a => httpMalloc_ map size a
  | .realloc p size a => httpRealloc_ map p size a
  | .free p => httpFree_ map p

/-- What `malloc` and `realloc` may answer beside these other blocks. -/
def Fresh (others : List (ℕ × ℤ)) (a : ℕ) : Prop := a ≠ 0 ∧ a ∉ others.map Prod.fst

/-- The call is about a live block or `NULL`, its answer is not another live
block, and at most `_memory_len` blocks are live behind it. -/
def Allowed (blocks : List (ℕ × ℤ)) : Call → Prop
  | .malloc _ a => Fresh blocks a ∧ blocks.length + 1 ≤ MEMORY_LEN
  | .realloc p size a => (p = 0 ∨ p ∈ blocks.map Prod.fst) ∧ 0 < size ∧
      Fresh (Lib.Assoc.erase p blocks) a ∧ (Lib.Assoc.erase p blocks).length + 1 ≤ MEMORY_LEN
  | .free p => p = 0 ∨ p ∈ blocks.map Prod.fst

instance (others : List (ℕ × ℤ)) (a : ℕ) : Decidable (Fresh others a) :=
  inferInstanceAs (Decidable (_ ∧ _))

instance (blocks : List (ℕ × ℤ)) : (c : Call) → Decidable (Allowed blocks c)
  | .malloc _ _ => inferInstanceAs (Decidable (_ ∧ _))
  | .realloc _ _ _ => inferInstanceAs (Decidable (_ ∧ _ ∧ _ ∧ _))
  | .free _ => inferInstanceAs (Decidable (_ ∨ _))

/-- What is allocated, and the ledger or how the process has ended. -/
structure World where
  blocks : List (ℕ × ℤ)
  map : Except Exit MemoryMap

/-- Any calls, one after the other. -/
def calls : Machine World Call where
  Enabled w c := Allowed w.blocks c
  next w c := ⟨c.blocks w.blocks, w.map >>= fun map => c.ledger map⟩

instance (w : World) (c : Call) : Decidable (calls.Enabled w c) :=
  inferInstanceAs (Decidable (Allowed w.blocks c))

/-- Behind `http_init`. -/
def start : World := ⟨[], .ok httpInit⟩

/-- The ledger holds the blocks, each in one entry. -/
structure Holds (map : MemoryMap) (blocks : List (ℕ × ℤ)) : Prop where
  length : map.length = MEMORY_LEN
  perm : (live map).Perm blocks
  nodup : (blocks.map Prod.fst).Nodup
  not_null : 0 ∉ blocks.map Prod.fst

/-- The ledger is exact. -/
structure Exact (map : MemoryMap) (blocks : List (ℕ × ℤ)) : Prop where
  /-- The entries that are not `NULL` are the live blocks with their latest
  sizes. -/
  entries : (live map).Perm blocks
  /-- Each block is there once. -/
  once : ((live map).map Prod.fst).Nodup
  /-- The usage is the sum of the sizes, if this is an `int`. -/
  usage : -(2 ^ 31) ≤ (blocks.map Prod.snd).sum → (blocks.map Prod.snd).sum < 2 ^ 31 →
    httpMemoryUsage map = (blocks.map Prod.snd).sum

variable {blocks : List (ℕ × ℤ)}

/-- A ledger that holds the blocks lists each once, and its usage is theirs. -/
theorem Holds.exact (h : Holds map blocks) : Exact map blocks where
  entries := h.perm
  once := (h.perm.map Prod.fst).nodup_iff.2 h.nodup
  usage hle hlt := by
    rw [httpMemoryUsage_eq, (h.perm.map Prod.snd).sum_eq]
    exact Lib.toInt32_of_bounds hle hlt

/-- The ledger starts without blocks.  All its entries have the pointer `NULL`. -/
theorem holds_init : Holds httpInit [] := by
  refine ⟨List.length_replicate, ?_, List.nodup_nil, List.not_mem_nil⟩
  have hnone : live httpInit = [] := by
    rw [live, List.map_eq_nil_iff, List.filter_eq_nil_iff]
    intro e he
    rw [List.eq_of_mem_replicate he]
    decide
  rw [hnone]

/-- Their order does not matter. -/
theorem Holds.of_perm {blocks' : List (ℕ × ℤ)} (h : Holds map blocks)
    (hperm : blocks.Perm blocks') : Holds map blocks' :=
  ⟨h.length, h.perm.trans hperm, (hperm.map _).nodup_iff.1 h.nodup,
    fun h0 => h.not_null ((hperm.map _).mem_iff.2 h0)⟩

/-- A further block, at an address that is not live.  The allocator gives no
such address, nor `NULL`, so the addresses stay distinct. -/
theorem Holds.add (hperm : (live map').Perm ((a, size) :: rest))
    (hlength : map'.length = MEMORY_LEN) (ha : Fresh rest a) (hnodup : (rest.map Prod.fst).Nodup)
    (hnull : 0 ∉ rest.map Prod.fst) :
    Holds map' (Lib.Assoc.set a size rest) := by
  refine ⟨hlength, ?_, Lib.Assoc.nodup_keys_set hnodup, fun h0 => ?_⟩
  · rw [Lib.Assoc.set_of_not_mem ha.2]
    exact hperm.trans (List.perm_append_singleton _ _).symm
  · rcases Lib.Assoc.mem_keys_set.1 h0 with h0 | h0
    · exact ha.1 h0.symm
    · exact hnull h0

/-- The blocks without one of them. -/
theorem Holds.erase (h : Holds map blocks) (p : ℕ) :
    ((Lib.Assoc.erase p blocks).map Prod.fst).Nodup ∧ 0 ∉ (Lib.Assoc.erase p blocks).map Prod.fst :=
  ⟨h.nodup.sublist Lib.Assoc.keys_erase_sublist,
    fun h0 => h.not_null (Lib.Assoc.keys_erase_sublist.subset h0)⟩

/-- A live block, and the others.  Addresses are distinct, so erasing this one
leaves no other entry of it. -/
theorem Holds.exists_rest (h : Holds map blocks) (hp : p ∈ blocks.map Prod.fst) :
    ∃ n, (live map).Perm ((p, n) :: Lib.Assoc.erase p blocks) ∧
      p ∉ (Lib.Assoc.erase p blocks).map Prod.fst ∧ p ≠ 0 := by
  rcases Lib.Assoc.mem_or_exists_first p blocks with hnot | ⟨b₁, n, b₂, rfl, hnot⟩
  · exact absurd hp hnot
  · refine ⟨n, ?_, ?_, fun h0 => h.not_null (h0 ▸ hp)⟩
    · rw [Lib.Assoc.erase_append_cons hnot]
      exact h.perm.trans List.perm_middle
    · exact Lib.Assoc.lookup_eq_none.1 (Lib.Assoc.lookup_erase_self h.nodup)

/-- **Each call keeps the ledger exact**, if it is given an address that is not
live, frees only what is live, and finds an entry. -/
theorem Holds.step (h : Holds map blocks) {c : Call} (hc : Allowed blocks c) :
    ∃ map', c.ledger map = .ok map' ∧ Holds map' (c.blocks blocks) := by
  have hlive : (live map).length = blocks.length := h.perm.length_eq
  cases c with
  | malloc size a =>
    obtain ⟨ha, hroom⟩ := hc
    obtain ⟨map', hmap', hlength, hperm⟩ :=
      httpMalloc_live (by rw [hlive, h.length]; exact hroom) size ha.1
    exact ⟨map', hmap', Holds.add (hperm.trans (h.perm.cons _)) (hlength.trans h.length) ha h.nodup
      h.not_null⟩
  | realloc p size a =>
    obtain ⟨hp, -, ha, hroom⟩ := hc
    obtain ⟨hnodup, hnull⟩ := h.erase p
    rcases hp with rfl | hp
    · have hsame : Lib.Assoc.erase 0 blocks = blocks := Lib.Assoc.erase_of_not_mem h.not_null
      rw [hsame] at ha hroom
      have hfree : (live map).length < map.length := by rw [hlive, h.length]; exact hroom
      obtain ⟨map', hmap', hlength, hperm⟩ := httpMalloc_live hfree size ha.1
      refine ⟨map', (httpRealloc_null hfree size ha.1).trans hmap', ?_⟩
      rw [Call.blocks, hsame]
      exact Holds.add (hperm.trans (h.perm.cons _)) (hlength.trans h.length) ha h.nodup h.not_null
    · obtain ⟨n, hsplit, hnot, hp0⟩ := h.exists_rest hp
      obtain ⟨map', hmap', hlength, hperm⟩ := httpRealloc_live hsplit hnot hp0 size ha.1
      exact ⟨map', hmap', Holds.add hperm (hlength.trans h.length) ha hnodup hnull⟩
  | free p =>
    obtain ⟨hnodup, hnull⟩ := h.erase p
    rcases hc with rfl | hp
    · refine ⟨map, by rw [Call.ledger, httpFree_, if_pos rfl], ?_⟩
      rw [Call.blocks, Lib.Assoc.erase_of_not_mem h.not_null]
      exact h
    · obtain ⟨n, hsplit, hnot, hp0⟩ := h.exists_rest hp
      obtain ⟨map', hmap', hlength, hperm⟩ := httpFree_live hsplit hnot hp0
      exact ⟨map', hmap', hlength.trans h.length, hperm, hnodup, hnull⟩

/-- **The ledger is exact after any calls, and no call ends the process**, by
induction over the calls. -/
theorem run_exact {tr : List Call} {w : World} (hrun : calls.Run start tr w) :
    ∃ map, w.map = .ok map ∧ Exact map w.blocks := by
  suffices h : ∃ map, w.map = .ok map ∧ Holds map w.blocks by
    obtain ⟨map, hmap, hholds⟩ := h
    exact ⟨map, hmap, hholds.exact⟩
  refine Lib.Machine.run_induction (P := fun _ w => ∃ map, w.map = .ok map ∧ Holds map w.blocks)
    ⟨httpInit, rfl, holds_init⟩ ?_ hrun
  rintro tr w c - ⟨map, hmap, hholds⟩ hc
  obtain ⟨map', hmap', hholds'⟩ := hholds.step hc
  refine ⟨map', ?_, hholds'⟩
  change (w.map >>= fun map => c.ledger map) = .ok map'
  rw [hmap]
  exact hmap'

/-- A block is freed, its entry is taken by `realloc` of `NULL`, and another one
moves. -/
def reused : List Call :=
  [.malloc 10 1, .malloc 20 2, .free 1, .realloc 0 30 3, .realloc 2 40 1, .free 0]

/-- The hypothesis is satisfiable, for a run in which an entry and an address
are used twice. -/
theorem run_exact_reused : ∃ map, (calls.exec start reused).map = .ok map ∧
    Exact map [(3, 30), (1, 40)] :=
  run_exact (w := calls.exec start reused) (Lib.Machine.run_iff_exec.2 ⟨by decide, rfl⟩)

end Sys
end Dukserver
