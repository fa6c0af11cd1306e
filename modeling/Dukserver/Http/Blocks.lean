/-
# Strings and dictionaries in blocks of memory

`libhttpd/http_map.c` and `http_strdup` once more, now with the calls of `http_malloc`,
`http_realloc` and `http_free` they make.  A pointer to a string comes with the block it
points to and with what is written there; the strings of a dictionary are not changed once
they are there.  `MapT.toMap` forgets the addresses, and `httpMapSet_ends` says both what
the dictionary is afterwards and which blocks it owns.
-/

import Dukserver.Http.Map
import Dukserver.Sys.Alloc

namespace Dukserver
namespace Http
namespace Blocks

open Lib (Bytes cstr)
open Lib.Effects (Ends ends_pure)
open Sys (Alloc Allocator Heap Owns httpMalloc httpRealloc httpFree MEMORY_LEN)

/-- A string with its block; `bytes` is what is written before the last NUL. -/
structure Str where
  p : ℕ
  size : ℤ
  bytes : Bytes
  deriving DecidableEq, Repr

/-- `http_strdup`. -/
def httpStrdup (A : Allocator) (s : Bytes) : Alloc Str := do
  let n : ℤ := (cstr s).length
  let p ← httpMalloc A (n + 1)
  return ⟨p, n + 1, cstr s⟩

/-- `sizeof(http_map_t)` and `sizeof(http_pair_t)`. -/
def MAP_SIZE : ℤ := 16
def PAIR_SIZE : ℤ := 16

/-- `http_map_t`: its block, the block of its pairs and the strings of the
pairs. -/
structure MapT where
  p : ℕ
  maxCount : ℕ
  values : ℕ
  pairs : List (Str × Option Str)
  deriving DecidableEq, Repr

/-- `http_map_new`, of a number that is positive. -/
def httpMapNew (A : Allocator) (maxcount : ℕ) : Alloc MapT := do
  let p ← httpMalloc A MAP_SIZE
  let values ← httpMalloc A (PAIR_SIZE * maxcount)
  return ⟨p, maxcount, values, []⟩

/-- A string is freed unless its pointer is `NULL`. -/
def freeStr : Option Str → Alloc PUnit
  | none => return ⟨⟩
  | some s => httpFree s.p

/-- The loop of `http_map_delete`. -/
def freePairs : List (Str × Option Str) → Alloc PUnit
  | [] => return ⟨⟩
  | q :: pairs => do
    httpFree q.1.p
    freeStr q.2
    freePairs pairs

/-- `http_map_delete`. -/
def httpMapDelete (m : MapT) : Alloc PUnit := do
  freePairs m.pairs
  httpFree m.values
  httpFree m.p

/-- The value of a pair, `NULL` or a copy. -/
def dupValue (A : Allocator) : Option Bytes → Alloc (Option Str)
  | none => return none
  | some v => do return some (← httpStrdup A v)

/-- The room `http_map_set` makes. -/
def expand (A : Allocator) (m : MapT) : Alloc MapT :=
  if m.maxCount ≤ m.pairs.length + 1 then do
    let values ← httpRealloc A m.values (PAIR_SIZE * (m.maxCount * 2 : ℕ))
    return { m with maxCount := m.maxCount * 2, values }
  else return m

/-- The search for the key, and the pair it gets. -/
def placePair (A : Allocator) (k : Bytes) (v : Option Bytes) :
    List (Str × Option Str) → Alloc (List (Str × Option Str))
  | [] => do
    let a ← httpStrdup A k
    let b ← dupValue A v
    return [(a, b)]
  | q :: pairs =>
    if q.1.bytes == cstr k then do
      freeStr q.2
      let b ← dupValue A v
      return (q.1, b) :: pairs
    else do
      let pairs ← placePair A k v pairs
      return q :: pairs

/-- `http_map_set`. -/
def httpMapSet (A : Allocator) (m : MapT) (k v : Option Bytes) : Alloc MapT :=
  match k with
  | none => return m
  | some k => do
    let m ← expand A m
    let pairs ← placePair A k v m.pairs
    return { m with pairs }

/-! ### What is owned -/

/-- The block of a string. -/
def Str.block (s : Str) : Sys.Blocks := Sys.block s.p s.size

/-- The block of a string that may be `NULL`. -/
def optBlock : Option Str → Sys.Blocks
  | none => 0
  | some s => s.block

/-- The blocks of the strings of pairs. -/
def pairBlocks : List (Str × Option Str) → Sys.Blocks
  | [] => 0
  | q :: pairs => q.1.block + optBlock q.2 + pairBlocks pairs

/-- All blocks of a dictionary. -/
def MapT.blocks (m : MapT) : Sys.Blocks :=
  Sys.block m.p MAP_SIZE + Sys.block m.values (PAIR_SIZE * m.maxCount) + pairBlocks m.pairs

/-- What pairs hold. -/
def entries (pairs : List (Str × Option Str)) : List (Bytes × Option Bytes) :=
  pairs.map fun q => (q.1.bytes, q.2.map Str.bytes)

/-- The dictionary without its addresses. -/
def MapT.toMap (m : MapT) : HttpMap := ⟨m.maxCount, entries m.pairs⟩

variable {A : Allocator} {h : Heap} {M : Sys.Blocks} {m : MapT} {s : Str} {o : Option Str}
  {pairs : List (Str × Option Str)}

/-- A value has one block, or none if it is `NULL`. -/
theorem card_optBlock_le (o : Option Str) : (optBlock o).card ≤ 1 := by
  cases o with
  | none => exact Nat.zero_le _
  | some s => exact (Sys.card_block _ _).le

/-- A copy takes one block, and reads up to the first NUL of what was copied. -/
theorem httpStrdup_ends (ho : Owns h M) (hroom : M.card < MEMORY_LEN) (k : Bytes) :
    Ends (httpStrdup A k) h fun s t => Owns t (s.block + M) ∧ s.bytes = cstr k :=
  (Sys.httpMalloc_ends ho hroom _).seq fun _ _ ht => ends_pure ⟨ht, rfl⟩

/-- A value is copied if there is one.  Without one `http_map_set` stores `NULL`
and takes no block. -/
theorem dupValue_ends (ho : Owns h M) (hroom : M.card < MEMORY_LEN) (v : Option Bytes) :
    Ends (dupValue A v) h fun o t => Owns t (optBlock o + M) ∧ o.map Str.bytes = v.map cstr := by
  cases v with
  | none => exact ends_pure ⟨by rwa [optBlock, zero_add], rfl⟩
  | some v =>
    refine (httpStrdup_ends ho hroom v).seq fun s t ht => ends_pure ⟨ht.1, ?_⟩
    rw [Option.map_some, Option.map_some, ht.2]

/-- And freed if there is one. -/
theorem freeStr_ends (ho : Owns h (optBlock o + M)) :
    Ends (freeStr o) h fun _ t => Owns t M := by
  cases o with
  | none => exact ends_pure (by rwa [optBlock, zero_add] at ho)
  | some s => exact Sys.httpFree_ends ho

/-- The strings of all pairs are freed.  A value that is `NULL` has no block,
and `http_map_delete` passes it over. -/
theorem freePairs_ends (ho : Owns h (pairBlocks pairs + M)) :
    Ends (freePairs pairs) h fun _ t => Owns t M := by
  induction pairs generalizing h with
  | nil => exact ends_pure (by rwa [pairBlocks, zero_add] at ho)
  | cons q pairs ih =>
    rw [pairBlocks, add_assoc, add_assoc] at ho
    exact (Sys.httpFree_ends ho).seq fun _ _ hk => (freeStr_ends hk).seq fun _ _ hv => ih hv

/-- **`http_map_delete` frees what the dictionary owns**: the strings, the pairs
and the record. -/
theorem httpMapDelete_ends (ho : Owns h (m.blocks + M)) :
    Ends (httpMapDelete m) h fun _ t => Owns t M := by
  have hsplit : m.blocks + M = pairBlocks m.pairs +
      (Sys.block m.values (PAIR_SIZE * m.maxCount) + (Sys.block m.p MAP_SIZE + M)) := by
    rw [MapT.blocks]
    abel
  rw [hsplit] at ho
  exact (freePairs_ends ho).seq fun _ _ hp => (Sys.httpFree_ends hp).seq fun _ _ hv =>
    Sys.httpFree_ends hv

/-- A new dictionary takes two blocks, and is empty.  One is the map and the
other the array of its pairs. -/
theorem httpMapNew_ends (ho : Owns h M) (hroom : M.card + 1 < MEMORY_LEN) (maxcount : ℕ) :
    Ends (httpMapNew A maxcount) h fun m t => Owns t (m.blocks + M) ∧ m.blocks.card = 2 ∧
      m.toMap = Http.httpMapNew maxcount := by
  refine (Sys.httpMalloc_ends ho (by omega) MAP_SIZE).seq fun p t ht => ?_
  refine (Sys.httpMalloc_ends ht (by rw [Multiset.card_add, Sys.card_block]; omega) _).seq
    fun values t ht => ends_pure ⟨?_, ?_, rfl⟩
  · refine ht.of_eq ?_
    rw [MapT.blocks, pairBlocks]
    abel
  · rw [MapT.blocks, pairBlocks]
    simp

/-- The pair of the key gets a new value, or there is a new pair.  The old value
is freed before the new one is copied. -/
theorem placePair_ends (ho : Owns h (pairBlocks pairs + M))
    (hroom : (pairBlocks pairs + M).card + 2 ≤ MEMORY_LEN) (k : Bytes) (v : Option Bytes) :
    Ends (placePair A k v pairs) h fun pairs' t => Owns t (pairBlocks pairs' + M) ∧
      (pairBlocks pairs').card ≤ (pairBlocks pairs).card + 2 ∧
      entries pairs' = Lib.Assoc.set (cstr k) (v.map cstr) (entries pairs) := by
  induction pairs generalizing h M with
  | nil =>
    rw [pairBlocks, zero_add] at ho hroom
    refine (httpStrdup_ends ho (by omega) k).seq ?_
    rintro a t ⟨ha, hak⟩
    have hroom' : (a.block + M).card < MEMORY_LEN := by
      rw [Multiset.card_add, Str.block, Sys.card_block]
      omega
    refine (dupValue_ends ha hroom' v).seq ?_
    rintro b t ⟨hb, hbv⟩
    refine ends_pure ⟨?_, ?_, ?_⟩
    · refine hb.of_eq ?_
      rw [pairBlocks, pairBlocks]
      abel
    · have hcard := card_optBlock_le b
      simp only [pairBlocks, Multiset.card_add, Str.block, Sys.card_block, Multiset.card_zero]
      omega
    · rw [entries, List.map_singleton, hak, hbv]
      rfl
  | cons q pairs ih =>
    rw [placePair]
    by_cases hk : q.1.bytes = cstr k
    · rw [if_pos (beq_iff_eq.2 hk)]
      have hold : pairBlocks (q :: pairs) + M =
          optBlock q.2 + (q.1.block + pairBlocks pairs + M) := by
        rw [pairBlocks]
        abel
      rw [hold] at ho
      rw [pairBlocks] at hroom ⊢
      refine (freeStr_ends ho).seq fun _ t ht => ?_
      have hroom' : (q.1.block + pairBlocks pairs + M).card < MEMORY_LEN := by
        simp only [Multiset.card_add] at hroom ⊢
        omega
      refine (dupValue_ends ht hroom' v).seq ?_
      rintro b t ⟨hb, hbv⟩
      refine ends_pure ⟨?_, ?_, ?_⟩
      · refine hb.of_eq ?_
        rw [pairBlocks]
        abel
      · have hcard := card_optBlock_le b
        rw [pairBlocks]
        simp only [Multiset.card_add]
        omega
      · rw [entries, List.map_cons, entries, List.map_cons, Lib.Assoc.set,
          if_pos (beq_iff_eq.2 hk), hbv]
    · rw [if_neg (by simpa using hk)]
      have hold : pairBlocks (q :: pairs) + M =
          pairBlocks pairs + (q.1.block + optBlock q.2 + M) := by
        rw [pairBlocks]
        abel
      rw [hold] at ho hroom
      refine (ih ho hroom).seq ?_
      rintro pairs' t ⟨hpairs, hcard, hentries⟩
      refine ends_pure ⟨?_, ?_, ?_⟩
      · refine hpairs.of_eq ?_
        rw [pairBlocks]
        abel
      · rw [pairBlocks, pairBlocks]
        simp only [Multiset.card_add]
        omega
      · rw [entries, List.map_cons, entries, List.map_cons, Lib.Assoc.set,
          if_neg (by simpa using hk), ← entries, hentries]
        rfl

/-- A dictionary that is nearly full moves to a block of twice its size, which
is one block as before. -/
theorem expand_ends (ho : Owns h (m.blocks + M)) :
    Ends (expand A m) h fun m' t => Owns t (m'.blocks + M) ∧ m'.pairs = m.pairs ∧
      m'.maxCount = if m.maxCount ≤ m.pairs.length + 1 then m.maxCount * 2 else m.maxCount := by
  rw [expand]
  split_ifs with hfull
  · have hold : m.blocks + M = Sys.block m.values (PAIR_SIZE * m.maxCount) +
        (Sys.block m.p MAP_SIZE + pairBlocks m.pairs + M) := by
      rw [MapT.blocks]
      abel
    rw [hold] at ho
    refine (Sys.httpRealloc_ends ho _).seq fun values t ht => ends_pure ⟨?_, rfl, rfl⟩
    refine ht.of_eq ?_
    rw [MapT.blocks]
    abel
  · exact ends_pure ⟨ho, rfl, rfl⟩

/-- **`http_map_set` sets the key**, and owns at most two blocks more: a copy of
the key and one of the value. -/
theorem httpMapSet_ends (ho : Owns h (m.blocks + M))
    (hroom : (m.blocks + M).card + 2 ≤ MEMORY_LEN) (k : Bytes) (v : Option Bytes) :
    Ends (httpMapSet A m (some k) v) h fun m' t => Owns t (m'.blocks + M) ∧
      m'.blocks.card ≤ m.blocks.card + 2 ∧ m'.toMap = Http.httpMapSet m.toMap k v := by
  refine (expand_ends ho).seq ?_
  rintro e t ⟨he, hpairs, hmax⟩
  have hold : e.blocks + M = pairBlocks e.pairs +
      (Sys.block e.p MAP_SIZE + Sys.block e.values (PAIR_SIZE * e.maxCount) + M) := by
    rw [MapT.blocks]
    abel
  have hcards : (pairBlocks e.pairs +
      (Sys.block e.p MAP_SIZE + Sys.block e.values (PAIR_SIZE * e.maxCount) + M)).card =
        (m.blocks + M).card := by
    rw [MapT.blocks, hpairs]
    simp only [Multiset.card_add, Sys.card_block]
    omega
  rw [hold] at he
  refine (placePair_ends he (by rw [hcards]; exact hroom) k v).seq ?_
  rintro pairs t ⟨hown, hcard, hentries⟩
  refine ends_pure ⟨?_, ?_, ?_⟩
  · refine hown.of_eq ?_
    rw [MapT.blocks]
    abel
  · rw [hpairs] at hcard
    rw [MapT.blocks, MapT.blocks]
    simp only [Multiset.card_add, Sys.card_block]
    omega
  · rw [MapT.toMap, hentries, hpairs, hmax, MapT.toMap, Http.httpMapSet]
    simp [entries]

end Blocks
end Http
end Dukserver
