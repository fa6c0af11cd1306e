/-
# The blocks of a form that is decoded

`libhttpd/http_urldecode.c` with the blocks it allocates.  `http_unquote` allocates its
buffer first; where an escape is cut off it returns `-1` without the buffer, which nobody
frees then.  Everything else that `http_urldecode` allocates is freed by it or owned by the
dictionary, so `http_map_delete` leaves exactly one block for each piece of the form that
ends inside an escape (`httpUrldecode_ends`).
-/

import Dukserver.Http.Blocks
import Dukserver.Http.Escapes

namespace Dukserver
namespace Http
namespace Blocks

open Lib (Bytes)
open Lib.Effects (Ends ends_pure)
open Sys (Alloc Allocator Heap Owns httpMalloc httpFree MEMORY_LEN live)

/-- `http_unquote` with a place for the result; `none` is `-1`, and nothing is
stored. -/
def httpUnquote (A : Allocator) (s : Bytes) : Alloc (Option Str) := do
  let size : ℤ := 8 * s.length + 1
  let p ← httpMalloc A size
  match Http.httpUnquote s with
  | none => return none
  | some out => return some ⟨p, size, out⟩

/-- A key without a value is stored and freed. -/
def flushKey (A : Allocator) (key : Option Str) (m : MapT) : Alloc MapT :=
  match key with
  | some k => do
    let m ← httpMapSet A m (some k.bytes) (some [])
    httpFree k.p
    return m
  | none => return m

/-- What `http_urldecode` does with the segment `s` at an `&` and at the end. -/
def storeSegment (A : Allocator) (s : Bytes) (key : Option Str) (m : MapT) : Alloc MapT :=
  if s ≠ [] then
    match key with
    | some k => do
      let value ← httpUnquote A s
      let m ← httpMapSet A m (some k.bytes) (value.map Str.bytes)
      httpFree k.p
      freeStr value
      return m
    | none => do
      let key ← httpUnquote A s
      let m ← httpMapSet A m (key.map Str.bytes) (some [])
      freeStr key
      return m
  else flushKey A key m

/-- The loop of `http_urldecode`; `s` is the segment up to `p`. -/
def urldecodeLoop (A : Allocator) : Bytes → Bytes → Option Str → MapT → Alloc MapT
  | [], s, key, m => storeSegment A s key m
  | p :: t, s, key, m =>
    if p = 61 then do
      let m ← flushKey A key m
      let key ← httpUnquote A s
      urldecodeLoop A t [] key m
    else if p = 38 then do
      let m ← storeSegment A s key m
      urldecodeLoop A t [] none m
    else urldecodeLoop A t (s ++ [p]) key m

/-- `http_urldecode`. -/
def httpUrldecode (A : Allocator) (buffer : Bytes) : Alloc MapT := do
  let m ← httpMapNew A HTTP_DEFAULT_HEADERS_COUNT
  urldecodeLoop A buffer [] none m

/-- The pieces of a form behind a piece that has begun. -/
def piecesFrom : Bytes → Bytes → List Bytes
  | s, [] => [s]
  | s, p :: t => if p = 61 ∨ p = 38 then s :: piecesFrom [] t else piecesFrom (s ++ [p]) t

/-- The pieces of a form between the delimiters `=` and `&`. -/
def pieces (buffer : Bytes) : List Bytes := piecesFrom [] buffer

/-! ### What is left behind -/

variable {A : Allocator} {h : Heap} {M : Sys.Blocks} {m : MapT} {s t : Bytes} {key : Option Str}

/-- The number of blocks that a piece leaves behind. -/
def lost (s : Bytes) : ℕ := if truncated s then 1 else 0

/-- **`http_unquote` loses its buffer if an escape is cut off**: the way out
with `-1` is behind the allocation. -/
theorem httpUnquote_ends (ho : Owns h M) (hroom : M.card < MEMORY_LEN) (s : Bytes) :
    Ends (httpUnquote A s) h fun o u => ∃ leak, Owns u (optBlock o + leak + M) ∧
      leak.card = lost s ∧ (optBlock o).card + leak.card = 1 ∧
      o.map Str.bytes = Http.httpUnquote s := by
  refine (Sys.httpMalloc_ends ho hroom _).seq fun p u hu => ?_
  cases hs : Http.httpUnquote s with
  | none =>
    have htruncated := httpUnquote_eq_none.1 hs
    refine ends_pure ⟨Sys.block p (8 * s.length + 1), ?_, ?_, ?_, rfl⟩
    · rwa [optBlock, zero_add]
    · rw [lost, if_pos htruncated, Sys.card_block]
    · rw [optBlock, Multiset.card_zero, Sys.card_block]
  | some out =>
    have htruncated : truncated s ≠ true := fun ht => by
      rw [httpUnquote_eq_none.2 ht] at hs
      cases hs
    refine ends_pure ⟨0, ?_, ?_, ?_, rfl⟩
    · rwa [add_zero]
    · rw [lost, if_neg htruncated, Multiset.card_zero]
    · rw [optBlock, Str.block, Sys.card_block, Multiset.card_zero]

/-- A name without a value is stored and freed: the dictionary has made its own
copy. -/
theorem flushKey_ends (ho : Owns h (m.blocks + optBlock key + M))
    (hroom : (m.blocks + optBlock key + M).card + 2 ≤ MEMORY_LEN) :
    Ends (flushKey A key m) h fun m' u => Owns u (m'.blocks + M) ∧
      m'.blocks.card ≤ m.blocks.card + 2 ∧
      m'.toMap = Http.flushKey (key.map Str.bytes) m.toMap := by
  cases key with
  | none =>
    rw [optBlock, add_zero] at ho
    exact ends_pure ⟨ho, by omega, rfl⟩
  | some k =>
    rw [optBlock, add_assoc] at ho hroom
    refine (httpMapSet_ends ho hroom k.bytes (some [])).seq ?_
    rintro m' u ⟨hu, hcard, hmap⟩
    have hfree : m'.blocks + (k.block + M) = Sys.block k.p k.size + (m'.blocks + M) := by
      rw [Str.block]
      abel
    rw [hfree] at hu
    refine (Sys.httpFree_ends hu).seq fun _ u hu => ends_pure ⟨hu, hcard, ?_⟩
    rw [hmap]
    rfl

/-- A piece loses one block at most. -/
theorem lost_le (s : Bytes) : lost s ≤ 1 := by
  rw [lost]
  split_ifs <;> decide

/-- A segment behind a key is its value, and is freed behind `http_map_set` with
the key. -/
theorem storeValue_ends {k : Str} (hs : s ≠ []) (ho : Owns h (m.blocks + k.block + M))
    (hroom : (m.blocks + k.block + M).card + 3 ≤ MEMORY_LEN) :
    Ends (storeSegment A s (some k) m) h fun m' u => ∃ leak, Owns u (m'.blocks + leak + M) ∧
      leak.card = lost s ∧ m'.blocks.card ≤ m.blocks.card + 2 ∧
      m'.toMap = Http.storeSegment s (some k.bytes) m.toMap := by
  rw [storeSegment, if_pos hs]
  refine (httpUnquote_ends ho (by omega) s).seq ?_
  rintro value u ⟨leak, hu, hleak, hone, hvalue⟩
  have hset : optBlock value + leak + (m.blocks + k.block + M) =
      m.blocks + (optBlock value + leak + k.block + M) := by abel
  rw [hset] at hu
  have hroom' : (m.blocks + (optBlock value + leak + k.block + M)).card + 2 ≤ MEMORY_LEN := by
    simp only [Multiset.card_add] at hroom ⊢
    omega
  refine (httpMapSet_ends hu hroom' k.bytes (value.map Str.bytes)).seq ?_
  rintro m' u ⟨hu, hcard, hmap⟩
  have hfree : m'.blocks + (optBlock value + leak + k.block + M) =
      Sys.block k.p k.size + (optBlock value + (m'.blocks + leak + M)) := by
    rw [Str.block]
    abel
  rw [hfree] at hu
  refine (Sys.httpFree_ends hu).seq fun _ u hu => (freeStr_ends hu).seq fun _ u hu =>
    ends_pure ⟨leak, hu, hleak, hcard, ?_⟩
  rw [hmap, hvalue, Http.storeSegment, if_pos hs]

/-- A segment without a key is a key, stored with `NULL` and freed; if it was
cut off, there is nothing to store. -/
theorem storeName_ends (hs : s ≠ []) (ho : Owns h (m.blocks + M))
    (hroom : (m.blocks + M).card + 3 ≤ MEMORY_LEN) :
    Ends (storeSegment A s none m) h fun m' u => ∃ leak, Owns u (m'.blocks + leak + M) ∧
      leak.card = lost s ∧ m'.blocks.card ≤ m.blocks.card + 2 ∧
      m'.toMap = Http.storeSegment s none m.toMap := by
  rw [storeSegment, if_pos hs]
  refine (httpUnquote_ends ho (by omega) s).seq ?_
  rintro name u ⟨leak, hu, hleak, hone, hname⟩
  cases name with
  | none =>
    rw [optBlock, zero_add] at hu
    refine ends_pure ⟨leak, hu.of_eq (by abel), hleak, by omega, ?_⟩
    rw [Http.storeSegment, if_pos hs, ← hname]
    rfl
  | some k =>
    have hset : optBlock (some k) + leak + (m.blocks + M) =
        m.blocks + (k.block + leak + M) := by
      rw [optBlock]
      abel
    rw [hset] at hu
    have hroom' : (m.blocks + (k.block + leak + M)).card + 2 ≤ MEMORY_LEN := by
      rw [optBlock] at hone
      simp only [Multiset.card_add] at hroom ⊢
      omega
    refine (httpMapSet_ends hu hroom' k.bytes (some [])).seq ?_
    rintro m' u ⟨hu, hcard, hmap⟩
    have hfree : m'.blocks + (k.block + leak + M) = k.block + (m'.blocks + leak + M) := by abel
    rw [hfree] at hu
    refine (Sys.httpFree_ends hu).seq fun _ u hu => ends_pure ⟨leak, hu, hleak, hcard, ?_⟩
    rw [hmap, Http.storeSegment, if_pos hs, ← hname]
    rfl

/-- So each segment is stored, and its blocks are freed but for a lost one, in
all three cases of what is pending. -/
theorem storeSegment_ends (ho : Owns h (m.blocks + optBlock key + M))
    (hroom : (m.blocks + optBlock key + M).card + 3 ≤ MEMORY_LEN) :
    Ends (storeSegment A s key m) h fun m' u => ∃ leak, Owns u (m'.blocks + leak + M) ∧
      leak.card = lost s ∧ m'.blocks.card ≤ m.blocks.card + 2 ∧
      m'.toMap = Http.storeSegment s (key.map Str.bytes) m.toMap := by
  by_cases hs : s = []
  · subst hs
    rw [storeSegment.eq_def, if_neg (by simp)]
    refine (flushKey_ends ho (by omega)).mono ?_
    rintro m' u ⟨hu, hcard, hmap⟩
    refine ⟨0, ?_, rfl, hcard, ?_⟩
    · rwa [add_zero]
    · rw [hmap, storeSegment_nil]
  · cases key with
    | some k => exact storeValue_ends hs ho hroom
    | none =>
      rw [optBlock, add_zero] at ho hroom
      exact storeName_ends hs ho hroom

/-- **The loop loses a block for each piece that ends inside an escape**, by
induction on the bytes that are left. -/
theorem urldecodeLoop_ends (ho : Owns h (m.blocks + optBlock key + M))
    (hroom : (m.blocks + optBlock key + M).card + 3 * (t.length + 1) ≤ MEMORY_LEN) :
    Ends (urldecodeLoop A t s key m) h fun m' u => ∃ leak, Owns u (m'.blocks + leak + M) ∧
      leak.card = (piecesFrom s t).countP truncated ∧
      m'.toMap = Http.urldecodeLoop t s (key.map Str.bytes) m.toMap := by
  induction t generalizing h M m s key with
  | nil =>
    refine (storeSegment_ends ho hroom).mono ?_
    rintro m' u ⟨leak, hu, hleak, -, hmap⟩
    refine ⟨leak, hu, ?_, hmap⟩
    rw [hleak, piecesFrom, List.countP_singleton, lost]
  | cons p t ih =>
    rw [List.length_cons] at hroom
    rw [urldecodeLoop.eq_def]
    dsimp only
    by_cases hp : p = 61
    · subst hp
      rw [if_pos rfl]
      refine (flushKey_ends ho (by omega)).seq ?_
      rintro m₁ u ⟨hu, hcard, hmap⟩
      have hroom₁ : (m₁.blocks + M).card + 3 * (t.length + 1) + 1 ≤ MEMORY_LEN := by
        simp only [Multiset.card_add] at hroom ⊢
        omega
      refine (httpUnquote_ends hu (by omega) s).seq ?_
      rintro key' u ⟨leak, hu, hleak, hone, hkey⟩
      have hloop : optBlock key' + leak + (m₁.blocks + M) =
          m₁.blocks + optBlock key' + (leak + M) := by abel
      rw [hloop] at hu
      have hroom₂ : (m₁.blocks + optBlock key' + (leak + M)).card + 3 * (t.length + 1) ≤
          MEMORY_LEN := by
        simp only [Multiset.card_add] at hroom₁ ⊢
        omega
      refine (ih hu hroom₂).mono ?_
      rintro m' u ⟨leak', hu, hleak', hmap'⟩
      refine ⟨leak' + leak, ?_, ?_, ?_⟩
      · exact hu.of_eq (by abel)
      · rw [Multiset.card_add, hleak', hleak, piecesFrom, if_pos (.inl rfl), List.countP_cons, lost]
      · rw [hmap', hkey, hmap, urldecodeLoop_equals]
    rw [if_neg hp]
    by_cases hp' : p = 38
    · subst hp'
      rw [if_pos rfl]
      refine (storeSegment_ends ho (by omega)).seq ?_
      rintro m₁ u ⟨leak, hu, hleak, hcard, hmap⟩
      have hloop : m₁.blocks + leak + M = m₁.blocks + optBlock none + (leak + M) := by
        rw [optBlock]
        abel
      rw [hloop] at hu
      have hroom₁ : (m₁.blocks + optBlock none + (leak + M)).card + 3 * (t.length + 1) ≤
          MEMORY_LEN := by
        have hlost := lost_le s
        rw [optBlock]
        simp only [Multiset.card_add, Multiset.card_zero] at hroom ⊢
        omega
      refine (ih hu hroom₁).mono ?_
      rintro m' u ⟨leak', hu, hleak', hmap'⟩
      refine ⟨leak' + leak, ?_, ?_, ?_⟩
      · exact hu.of_eq (by abel)
      · rw [Multiset.card_add, hleak', hleak, piecesFrom, if_pos (.inr rfl), List.countP_cons, lost]
      · rw [hmap', hmap, urldecodeLoop_amp]
        rfl
    · rw [if_neg hp']
      refine (ih ho (by omega)).mono ?_
      rintro m' u ⟨leak, hu, hleak, hmap⟩
      refine ⟨leak, hu, ?_, ?_⟩
      · rw [hleak, piecesFrom, if_neg (by simp [hp, hp'])]
      · rw [hmap, Http.urldecodeLoop.eq_def (p :: t)]
        simp only [if_neg hp, if_neg hp']

/-- **`http_urldecode` decodes the form, and loses a block for each cut-off
escape**; all others are freed or in the dictionary. -/
theorem httpUrldecode_ends (ho : Owns h M) {buffer : Bytes}
    (hroom : M.card + 3 * buffer.length + 5 ≤ MEMORY_LEN) :
    Ends (httpUrldecode A buffer) h fun m u => ∃ leak, Owns u (m.blocks + leak + M) ∧
      leak.card = (pieces buffer).countP truncated ∧ m.toMap = Http.httpUrldecode buffer := by
  refine (httpMapNew_ends ho (by omega) _).seq ?_
  rintro m u ⟨hu, hcard, hmap⟩
  have hstart : m.blocks + M = m.blocks + optBlock none + M := by rw [optBlock, add_zero]
  rw [hstart] at hu
  have hroom' : (m.blocks + optBlock none + M).card + 3 * (buffer.length + 1) ≤ MEMORY_LEN := by
    rw [← hstart, Multiset.card_add, hcard]
    omega
  refine (urldecodeLoop_ends hu hroom').mono ?_
  rintro m' u ⟨leak, hu, hleak, hmap'⟩
  refine ⟨leak, hu, hleak, ?_⟩
  rw [hmap', hmap]
  rfl

/-- Decoding a form and deleting the dictionary. -/
def decodeAndDelete (A : Allocator) (buffer : Bytes) : Alloc PUnit := do
  let m ← httpUrldecode A buffer
  httpMapDelete m

/-- The live blocks afterwards are those that were live before. -/
def LeavesLedger (A : Allocator) (h : Heap) (buffer : Bytes) : Prop :=
  Ends (decodeAndDelete A buffer) h fun _ u => ∀ b, b ∈ live u.map ↔ b ∈ live h.map

/-- Once the dictionary is deleted, the lost blocks are all that is left.  Each
segment with a cut-off escape has lost one, whatever the others are. -/
theorem decodeAndDelete_ends (ho : Owns h M) {buffer : Bytes}
    (hroom : M.card + 3 * buffer.length + 5 ≤ MEMORY_LEN) :
    Ends (decodeAndDelete A buffer) h fun _ u => ∃ leak, Owns u (leak + M) ∧
      leak.card = (pieces buffer).countP truncated := by
  refine (httpUrldecode_ends ho hroom).seq ?_
  rintro m u ⟨leak, hu, hleak, -⟩
  rw [add_assoc] at hu
  exact (httpMapDelete_ends hu).mono fun _ u hu => ⟨leak, hu, hleak⟩

/-- A program that ends with something lost does not leave the ledger. -/
theorem not_leavesLedger (ho : Owns h M) {buffer : Bytes}
    (hroom : M.card + 3 * buffer.length + 5 ≤ MEMORY_LEN)
    (hlost : 0 < (pieces buffer).countP truncated) : ¬LeavesLedger A h buffer := by
  rintro ⟨_, u, hexec, hsame⟩
  obtain ⟨_, u', hexec', leak, hu, hleak⟩ := decodeAndDelete_ends (A := A) ho hroom
  rw [hexec', Prod.mk.injEq] at hexec
  obtain ⟨-, rfl⟩ := hexec
  obtain ⟨b, hb⟩ := Multiset.card_pos_iff_exists_mem.1 (hleak ▸ hlost)
  have hbefore := (hsame b).1 (hu.mem_iff.2 (Multiset.mem_add.2 (.inl hb)))
  exact hu.disjoint hb (ho.mem_iff.1 hbefore)

/-- **Exactly the forms without a cut-off escape leave the ledger as it was.**
With one, a block is left that was not there, whichever addresses `malloc` has
given. -/
theorem leavesLedger_iff {blocks : List (ℕ × ℤ)} {buffer : Bytes} (hh : Sys.Holds h.map blocks)
    (hroom : blocks.length + 3 * buffer.length + 5 ≤ MEMORY_LEN) :
    LeavesLedger A h buffer ↔ ∀ piece ∈ pieces buffer, truncated piece = false := by
  have ho : Owns h blocks := ⟨blocks, hh, rfl⟩
  constructor
  · intro hleaves piece hpiece
    by_contra htruncated
    rw [Bool.not_eq_false] at htruncated
    exact not_leavesLedger ho hroom (List.countP_pos_iff.2 ⟨piece, hpiece, htruncated⟩) hleaves
  · intro hwhole
    refine (decodeAndDelete_ends ho hroom).mono ?_
    rintro _ u ⟨leak, hu, hleak⟩ b
    have hnone : leak = 0 := by
      rw [← Multiset.card_eq_zero, hleak, List.countP_eq_zero]
      exact fun piece hpiece => Bool.eq_false_iff.1 (hwhole piece hpiece)
    rw [hnone, zero_add] at hu
    rw [hu.mem_iff, ho.mem_iff]

/-- `a=1+2&b&c=%41`, of which every block is freed. -/
theorem leavesLedger_form :
    LeavesLedger Sys.neverReused .init [97, 61, 49, 43, 50, 38, 98, 38, 99, 61, 37, 52, 49] :=
  (leavesLedger_iff Sys.holds_init (by simp [MEMORY_LEN])).2 (by decide)

/-- `a=%4`, which ends inside an escape. -/
theorem leavesLedger_cut : ¬LeavesLedger Sys.neverReused .init [97, 61, 37, 52] :=
  not_leavesLedger Sys.owns_init (by simp [MEMORY_LEN]) (by decide)

end Blocks
end Http
end Dukserver
