/-
# The array behind the dictionary

`libhttpd/http_map.c` as it works on its block of pairs.  The map grows before the block
is full, so one pair behind the last is always there and `NULL`; `http_map_erase` moves
the pairs behind the one it frees, and an iterator ends itself at the last.  `Holds` says
which dictionary an array holds; the calls keep it, and with `Lib.History` this says what
a map is after any calls.

A copy made by `http_strdup` is what `cstr` sees of the string.  Left out are a map that is
`NULL`, a value that is the stored copy itself, and sizes beyond an `int`.
-/

import Dukserver.Http.Map
import Dukserver.Lib.History
import Dukserver.Lib.Outcome

namespace Dukserver
namespace Http
namespace MapArray

open Lib (Bytes cstr)
open Lib.History (Op latest insertedAt replay)

/-- `http_pair_t`, `none` being `NULL`. -/
structure HttpPair where
  a : Option Bytes
  b : Option Bytes
  deriving DecidableEq, Repr

/-- A pair of `NULL`s. -/
def nullPair : HttpPair := ⟨none, none⟩

/-- A block of pairs; `none` is what was not written yet. -/
abbrev Values := List (Option HttpPair)

/-- `http_map_t`. -/
structure HttpMapT where
  maxCount : ℕ
  count : ℕ
  values : Values
  deriving DecidableEq, Repr

/-- `values[i]` is read. -/
def readPair (values : Values) (i : ℕ) : Except Fault HttpPair :=
  match values[i]? with
  | none => .error .outOfBounds
  | some none => .error .uninitialised
  | some (some p) => .ok p

/-- `values[i]` is written. -/
def writePair (values : Values) (i : ℕ) (p : HttpPair) : Except Fault Values :=
  if i < values.length then .ok (values.set i (some p)) else .error .outOfBounds

/-- `http_map_new`; `none` is `NULL`. -/
def httpMapNew (maxcount : ℤ) : Option HttpMapT :=
  if maxcount ≤ 0 then none
  else some ⟨maxcount.toNat, 0, List.replicate maxcount.toNat (some nullPair)⟩

/-- `http_realloc` of the block to `n` pairs. -/
def reallocPairs (values : Values) (n : ℕ) : Values :=
  values.take n ++ List.replicate (n - values.length) none

/-- The loop that writes `n` pairs of `NULL`s from index `i` on. -/
def clearPairs (values : Values) (i : ℕ) : ℕ → Except Fault Values
  | 0 => .ok values
  | n + 1 => do clearPairs (← writePair values i nullPair) (i + 1) n

/-- The loop that compares the keys of `n` pairs from index `i` on with `k`. -/
def findPair (values : Values) (k : Bytes) (i : ℕ) : ℕ → Except Fault (Option ℕ)
  | 0 => .ok none
  | n + 1 => do
    match (← readPair values i).a with
    | none => .error .nullPointer
    | some a => if cstr k == a then .ok (some i) else findPair values k (i + 1) n

/-- The room `http_map_set` makes. -/
def expand (m : HttpMapT) : Except Fault HttpMapT :=
  if m.maxCount ≤ m.count + 1 then do
    let maxCount := m.maxCount * 2
    let values ← clearPairs (reallocPairs m.values maxCount) m.maxCount (maxCount - m.maxCount)
    return { m with maxCount, values }
  else .ok m

/-- `http_map_set` once there is room. -/
def place (m : HttpMapT) (k : Bytes) (v : Option Bytes) :
    Except Fault (HttpMapT × Option ℕ) := do
  match ← findPair m.values k 0 m.count with
  | some i =>
    let p ← readPair m.values i
    let values ← writePair m.values i { p with b := v.map cstr }
    return ({ m with values }, some i)
  | none =>
    let values ← writePair m.values m.count ⟨some (cstr k), v.map cstr⟩
    return ({ m with count := m.count + 1, values }, some m.count)

/-- `http_map_set`; the second result is the index of the pair it returns. -/
def httpMapSet (m : HttpMapT) (k v : Option Bytes) : Except Fault (HttpMapT × Option ℕ) :=
  match k with
  | none => .ok (m, none)
  | some k => do place (← expand m) k v

/-- `http_map_get`. -/
def httpMapGet (m : HttpMapT) (k : Option Bytes) : Except Fault (Option Bytes) :=
  match k with
  | none => .ok none
  | some k =>
    if m.count ≤ 0 then .ok none
    else do
      match ← findPair m.values k 0 m.count with
      | some i => return (← readPair m.values i).b
      | none => return none

/-- The loop that moves `n` pairs one to the left, the first of them to index
`i`. -/
def movePairs (values : Values) (i : ℕ) : ℕ → Except Fault Values
  | 0 => .ok values
  | n + 1 => do
    let q ← readPair values (i + 1)
    movePairs (← writePair values i q) (i + 1) n

/-- `http_map_erase`. -/
def httpMapErase (m : HttpMapT) (k : Option Bytes) : Except Fault (HttpMapT × Bool) :=
  match k with
  | none => .ok (m, false)
  | some k =>
    if m.count ≤ 0 then .ok (m, false)
    else do
      match ← findPair m.values k 0 m.count with
      | none => return (m, false)
      | some i =>
        let values ← writePair m.values i nullPair
        let values ← movePairs values i (m.count - 1 - i)
        let values ← writePair values (m.count - 1) nullPair
        return ({ m with count := m.count - 1, values }, true)

/-- `http_map_iter_t`. -/
structure HttpMapIter where
  parent : Option HttpMapT
  index : ℤ
  k : Option Bytes
  v : Option Bytes
  deriving DecidableEq, Repr

/-- `http_map_begin`. -/
def httpMapBegin (m : HttpMapT) : Except Fault (HttpMapIter × Bool) :=
  if m.count ≤ 0 then .ok (⟨none, -1, none, none⟩, false)
  else do
    let p ← readPair m.values 0
    return (⟨some m, 0, p.a, p.b⟩, true)

/-- `http_map_valid`. -/
def httpMapValid (iter : HttpMapIter) : Bool := !(iter.index < 0)

/-- `http_map_next`. -/
def httpMapNext (iter : HttpMapIter) : Except Fault (HttpMapIter × Bool) :=
  if iter.index == -1 then .ok (iter, false)
  else match iter.parent with
    | none => .error .nullPointer
    | some m =>
      if (m.count : ℤ) - 1 ≤ iter.index then .ok ({ iter with index := -1 }, false)
      else do
        let p ← readPair m.values (iter.index + 1).toNat
        return ({ iter with index := iter.index + 1, k := p.a, v := p.b }, true)

/-- The rounds of a loop from this iterator on, each with the pair it sees. -/
def rounds : ℕ → HttpMapIter → Except Fault (List (Option Bytes × Option Bytes))
  | 0, _ => .error .outOfFuel
  | fuel + 1, iter =>
    if httpMapValid iter then do
      let rest ← rounds fuel (← httpMapNext iter).1
      return (iter.k, iter.v) :: rest
    else .ok []

/-- `for (http_map_begin(m, &iter); http_map_valid(&iter);
http_map_next(&iter))`. -/
def visit (m : HttpMapT) : Except Fault (List (Option Bytes × Option Bytes)) := do
  rounds (m.count + 1) (← httpMapBegin m).1

/-! ### The block -/

variable {values rest : Values} {i n : ℕ}

/-- The pair of an entry. -/
def entry (p : Bytes × Option Bytes) : Option HttpPair := some ⟨some p.1, p.2⟩

/-- The pair at the place behind `before` is read, if it was written. -/
theorem readPair_append {before after : Values} {p : HttpPair} (hi : before.length = i) :
    readPair (before ++ some p :: after) i = .ok p := by
  have hget : (before ++ some p :: after)[i]? = some (some p) := by
    rw [List.getElem?_append_right hi.le, hi, Nat.sub_self, List.getElem?_cons_zero]
  rw [readPair, hget]

/-- The same for an array that is known from this place on only. -/
theorem readPair_of_drop {p : HttpPair} (h : values.drop i = some p :: rest) :
    readPair values i = .ok p := by
  have hget : values[i]? = some (some p) := by
    rw [← List.head?_drop, h, List.head?_cons]
  rw [readPair, hget]

/-- One place further, the rest is known. -/
theorem drop_succ_of_drop {c : Option HttpPair} (h : values.drop i = c :: rest) :
    values.drop (i + 1) = rest := by
  rw [← List.drop_drop, h, List.drop_one, List.tail_cons]

/-- A pair is written in its place, and those around it stay. -/
theorem writePair_append {before after : Values} {c : Option HttpPair} (hi : before.length = i)
    (p : HttpPair) :
    writePair (before ++ c :: after) i p = .ok (before ++ some p :: after) := by
  subst hi
  rw [writePair, if_pos (by simp), List.set_append_right _ _ le_rfl, Nat.sub_self,
    List.set_cons_zero]

/-- The loop behind `realloc` sets every new pair to `NULL`, one after the
other. -/
theorem clearPairs_append (before : Values) (n : ℕ) :
    clearPairs (before ++ List.replicate n none) before.length n =
      .ok (before ++ List.replicate n (some nullPair)) := by
  induction n generalizing before with
  | zero => rfl
  | succ n ih =>
    have hih := ih (before ++ [some nullPair])
    rw [List.length_append, List.length_singleton, List.append_assoc, List.append_assoc] at hih
    rw [List.replicate_succ, clearPairs, writePair_append rfl, Lib.ok_bind, List.replicate_succ]
    exact hih

/-- The first pair with the key is found: those before it have other keys and
are passed over, and it is below the count. -/
theorem findPair_found {k : Bytes} {before : List (Bytes × Option Bytes)} {w : Option Bytes}
    (h : values.drop i = before.map entry ++ entry (cstr k, w) :: rest)
    (hk : cstr k ∉ before.map Prod.fst) (hn : before.length < n) :
    findPair values k i n = .ok (some (i + before.length)) := by
  induction before generalizing i n with
  | nil =>
    obtain ⟨n, rfl⟩ := Nat.exists_eq_succ_of_ne_zero hn.ne'
    rw [findPair, readPair_of_drop h, Lib.ok_bind]
    exact if_pos (beq_self_eq_true _)
  | cons p before ih =>
    obtain ⟨n, rfl⟩ := Nat.exists_eq_succ_of_ne_zero (Nat.ne_zero_of_lt hn)
    rw [List.map_cons, List.mem_cons, not_or] at hk
    rw [List.map_cons, List.cons_append] at h
    rw [List.length_cons] at hn ⊢
    rw [findPair, readPair_of_drop h, Lib.ok_bind]
    have hne : (cstr k == p.1) = false := beq_eq_false_iff_ne.2 hk.1
    simp only [hne, Bool.false_eq_true, if_false]
    rw [ih (drop_succ_of_drop h) hk.2 (by omega)]
    congr 2
    omega

/-- A key that is nowhere is not found, after all pairs were compared.  The loop
has the count as its bound, so it does not run into the pair that is `NULL`. -/
theorem findPair_missing {k : Bytes} {l : List (Bytes × Option Bytes)}
    (h : values.drop i = l.map entry ++ rest) (hk : cstr k ∉ l.map Prod.fst) :
    findPair values k i l.length = .ok none := by
  induction l generalizing i with
  | nil => rfl
  | cons p l ih =>
    rw [List.map_cons, List.mem_cons, not_or] at hk
    rw [List.map_cons, List.cons_append] at h
    rw [List.length_cons, findPair, readPair_of_drop h, Lib.ok_bind]
    have hne : (cstr k == p.1) = false := beq_eq_false_iff_ne.2 hk.1
    simp only [hne, Bool.false_eq_true, if_false]
    exact ih (drop_succ_of_drop h) hk.2

/-- The pairs behind index `i` are moved up by one.  What the last of them
leaves in its old place does not matter: the caller clears it. -/
theorem movePairs_append (before after : Values) (c : Option HttpPair) (moved : List HttpPair) :
    ∃ last, movePairs (before ++ c :: (moved.map some ++ after)) before.length moved.length =
      .ok (before ++ moved.map some ++ last :: after) := by
  induction moved generalizing before c with
  | nil => exact ⟨c, by simp [movePairs]⟩
  | cons q moved ih =>
    obtain ⟨last, hlast⟩ := ih (before ++ [some q]) (some q)
    refine ⟨last, ?_⟩
    have hdrop : (before ++ c :: ((q :: moved).map some ++ after)).drop (before.length + 1) =
        some q :: (moved.map some ++ after) := by
      rw [List.append_cons, List.drop_left' (by simp), List.map_cons, List.cons_append]
    rw [List.length_cons, movePairs, readPair_of_drop hdrop, Lib.ok_bind, writePair_append rfl,
      Lib.ok_bind]
    simpa using hlast

/-! ### The array and the dictionary -/

/-- The array holds the entries of the dictionary in their order, and behind
them there is room. -/
structure Holds (m : HttpMapT) (d : HttpMap) : Prop where
  maxCount : m.maxCount = d.maxCount
  count : m.count = d.values.length
  room : m.count < m.maxCount
  values : m.values = d.values.map entry ++ List.replicate (m.maxCount - m.count) (some nullPair)

variable {m : HttpMapT} {d : HttpMap}

/-- The block has as many pairs as its size says: the entries and those that are
`NULL`. -/
theorem Holds.length (h : Holds m d) : m.values.length = m.maxCount := by
  have hcount := h.count
  have hroom := h.room
  rw [h.values, List.length_append, List.length_map, List.length_replicate]
  omega

/-- The array from its start, as the loops of the calls see it. -/
theorem Holds.drop_zero (h : Holds m d) : m.values.drop 0 =
    d.values.map entry ++ List.replicate (m.maxCount - m.count) (some nullPair) :=
  h.values

/-- A new map holds the empty dictionary, if there is a size to allocate. -/
theorem httpMapNew_holds {maxcount : ℤ} (h : 1 ≤ maxcount) :
    ∃ m, httpMapNew maxcount = some m ∧ Holds m (Http.httpMapNew maxcount.toNat) := by
  refine ⟨_, if_neg (by omega), rfl, rfl, ?_, ?_⟩
  · change 0 < maxcount.toNat
    omega
  · simp [Http.httpMapNew]

/-- The map has room for another pair, and its entries are the same.  It is
doubled when only one pair is left, so that the last one is never used. -/
theorem expand_holds (h : Holds m d) : ∃ m', expand m = .ok m' ∧
    Holds m' ⟨if d.maxCount ≤ d.values.length + 1 then d.maxCount * 2 else d.maxCount, d.values⟩ ∧
      m'.count + 1 < m'.maxCount := by
  have hmax := h.maxCount
  have hcount := h.count
  have hroom := h.room
  rw [expand, ← hmax, ← hcount]
  by_cases hfull : m.maxCount ≤ m.count + 1
  · have hblock : reallocPairs m.values (m.maxCount * 2) =
        m.values ++ List.replicate m.maxCount none := by
      rw [reallocPairs, h.length, List.take_of_length_le (by rw [h.length]; omega), Nat.mul_two,
        Nat.add_sub_cancel]
    have hclear := clearPairs_append m.values m.maxCount
    rw [h.length] at hclear
    rw [if_pos hfull, if_pos hfull]
    dsimp only
    rw [hblock, Nat.mul_two, Nat.add_sub_cancel, hclear]
    refine ⟨_, rfl, ⟨rfl, hcount, ?_, ?_⟩, ?_⟩
    · change m.count < m.maxCount + m.maxCount
      omega
    · change m.values ++ List.replicate m.maxCount (some nullPair) = d.values.map entry ++
        List.replicate (m.maxCount + m.maxCount - m.count) (some nullPair)
      rw [h.values, List.append_assoc, ← List.replicate_add]
      congr 2
      omega
    · change m.count + 1 < m.maxCount + m.maxCount
      omega
  · rw [if_neg hfull, if_neg hfull]
    exact ⟨m, rfl, ⟨rfl, hcount, hroom, h.values⟩, by omega⟩

/-- A new key gets the pair behind the last, which is `NULL` and within the
block. -/
theorem place_new (h : Holds m d) (hroom : m.count + 1 < m.maxCount) {k : Bytes}
    (hk : cstr k ∉ d.values.map Prod.fst) (v : Option Bytes) :
    ∃ m', place m k v = .ok (m', some m.count) ∧
      Holds m' ⟨d.maxCount, d.values ++ [(cstr k, v.map cstr)]⟩ ∧
      readPair m'.values m.count = .ok ⟨some (cstr k), v.map cstr⟩ := by
  have hcount := h.count
  have hpad : List.replicate (m.maxCount - m.count) (some nullPair) =
      some nullPair :: List.replicate (m.maxCount - (m.count + 1)) (some nullPair) := by
    rw [← List.replicate_succ]
    congr 1
    omega
  have hfind : findPair m.values k 0 m.count = .ok none := by
    rw [hcount]
    exact findPair_missing h.drop_zero hk
  have hwrite : writePair m.values m.count ⟨some (cstr k), v.map cstr⟩ =
      .ok (d.values.map entry ++ entry (cstr k, v.map cstr) ::
        List.replicate (m.maxCount - (m.count + 1)) (some nullPair)) := by
    rw [h.values, hpad]
    exact writePair_append (by rw [List.length_map, hcount]) _
  rw [place, hfind, Lib.ok_bind]
  dsimp only
  rw [hwrite]
  refine ⟨_, rfl, ⟨h.maxCount, ?_, hroom, ?_⟩, ?_⟩
  · rw [List.length_append, ← hcount, List.length_singleton]
  · rw [List.map_append, List.append_assoc]
    rfl
  · exact readPair_append (by rw [List.length_map, hcount])

/-- Where the pair of a key that is there stands, and that the search finds it:
keys are distinct, so none before it has the same. -/
theorem Holds.found {before after : List (Bytes × Option Bytes)} {k : Bytes} {w : Option Bytes}
    (h : Holds m ⟨n, before ++ (cstr k, w) :: after⟩) (hk : cstr k ∉ before.map Prod.fst) :
    m.values = before.map entry ++ entry (cstr k, w) ::
        (after.map entry ++ List.replicate (m.maxCount - m.count) (some nullPair)) ∧
      findPair m.values k 0 m.count = .ok (some before.length) ∧
      readPair m.values before.length = .ok ⟨some (cstr k), w⟩ := by
  have hcount := h.count
  have hvalues := h.values
  rw [List.map_append, List.map_cons, List.append_assoc, List.cons_append] at hvalues
  rw [List.length_append, List.length_cons] at hcount
  refine ⟨hvalues, ?_, ?_⟩
  · rw [← Nat.zero_add before.length]
    exact findPair_found hvalues hk (by omega)
  · rw [hvalues]
    exact readPair_append (List.length_map _)

/-- The pair of a key that is there keeps its place, and its old value is
replaced. -/
theorem place_old {before after : List (Bytes × Option Bytes)} {k : Bytes} {w : Option Bytes}
    (h : Holds m ⟨n, before ++ (cstr k, w) :: after⟩) (hk : cstr k ∉ before.map Prod.fst)
    (v : Option Bytes) :
    ∃ m', place m k v = .ok (m', some before.length) ∧
      Holds m' ⟨n, before ++ (cstr k, v.map cstr) :: after⟩ ∧
      readPair m'.values before.length = .ok ⟨some (cstr k), v.map cstr⟩ := by
  obtain ⟨hvalues, hfind, hread⟩ := h.found hk
  have hlen : (before.map entry).length = before.length := List.length_map _
  rw [place, hfind, Lib.ok_bind]
  dsimp only
  rw [hread, Lib.ok_bind, hvalues, entry, writePair_append hlen]
  refine ⟨_, rfl, ⟨h.maxCount, ?_, h.room, ?_⟩, readPair_append hlen⟩
  · have hcount := h.count
    rwa [List.length_append, List.length_cons] at hcount ⊢
  · rw [List.map_append, List.map_cons, List.append_assoc, List.cons_append]
    rfl

/-- **`http_map_set` sets the key of the dictionary**, and returns its pair.  A
key that is there keeps its place and a new one is put behind the others, as in
the dictionary. -/
theorem httpMapSet_holds (h : Holds m d) (k : Bytes) (v : Option Bytes) :
    ∃ m' i, httpMapSet m (some k) v = .ok (m', some i) ∧ Holds m' (Http.httpMapSet d k v) ∧
      readPair m'.values i = .ok ⟨some (cstr k), v.map cstr⟩ := by
  obtain ⟨e, he, hholds, hroom⟩ := expand_holds h
  have hset : httpMapSet m (some k) v = place e k v := by rw [httpMapSet, he, Lib.ok_bind]
  rw [hset, Http.httpMapSet]
  obtain ⟨maxCount, l⟩ := d
  rcases Lib.Assoc.mem_or_exists_first (cstr k) l with hnot | ⟨before, w, after, rfl, hnot⟩
  · obtain ⟨m', hm', hnew⟩ := place_new hholds hroom hnot v
    rw [Lib.Assoc.set_of_not_mem hnot]
    exact ⟨m', _, hm', hnew⟩
  · obtain ⟨m', hm', hold⟩ := place_old hholds hnot v
    rw [Lib.Assoc.set_append_cons hnot]
    exact ⟨m', _, hm', hold⟩

/-- **`http_map_get` reads the dictionary**: both look for the first entry with
the key. -/
theorem httpMapGet_holds (h : Holds m d) (k : Bytes) :
    httpMapGet m (some k) = .ok (Http.httpMapGet d k) := by
  have hcount := h.count
  obtain ⟨maxCount, l⟩ := d
  dsimp only at hcount
  rw [httpMapGet]
  by_cases hzero : m.count ≤ 0
  · have hnil : l = [] := List.length_eq_zero_iff.1 (by omega)
    rw [if_pos hzero, Http.httpMapGet, hnil]
    rfl
  rw [if_neg hzero, Http.httpMapGet]
  rcases Lib.Assoc.mem_or_exists_first (cstr k) l with hnot | ⟨before, w, after, rfl, hnot⟩
  · rw [hcount, findPair_missing h.drop_zero hnot, Lib.ok_bind, Lib.Assoc.lookup_eq_none.2 hnot]
    rfl
  · obtain ⟨-, hfind, hread⟩ := h.found hnot
    rw [hfind, Lib.ok_bind]
    dsimp only
    rw [hread, Lib.ok_bind, Lib.Assoc.lookup_append_cons hnot]
    rfl

/-- The pair of the key is taken out, and those behind it move up; the place of
the last one is cleared. -/
theorem erase_found {before after : List (Bytes × Option Bytes)} {k : Bytes} {w : Option Bytes}
    (h : Holds m ⟨n, before ++ (cstr k, w) :: after⟩) (hk : cstr k ∉ before.map Prod.fst) :
    ∃ m', httpMapErase m (some k) = .ok (m', true) ∧ Holds m' ⟨n, before ++ after⟩ := by
  have hcount := h.count
  rw [List.length_append, List.length_cons] at hcount
  obtain ⟨hvalues, hfind, -⟩ := h.found hk
  have hlen : (before.map entry).length = before.length := List.length_map _
  obtain ⟨last, hmove⟩ := movePairs_append (before.map entry)
    (List.replicate (m.maxCount - m.count) (some nullPair)) (some nullPair)
    (after.map fun p => ⟨some p.1, p.2⟩)
  have hafter : (after.map fun p => (⟨some p.1, p.2⟩ : HttpPair)).map some = after.map entry := by
    rw [List.map_map]
    rfl
  rw [hafter, hlen, List.length_map] at hmove
  have hrest : m.count - 1 - before.length = after.length := by omega
  have hlast : (before.map entry ++ after.map entry).length = m.count - 1 := by
    rw [List.length_append, List.length_map, List.length_map]
    omega
  rw [httpMapErase, if_neg (by omega), hfind, Lib.ok_bind]
  dsimp only
  rw [hvalues, writePair_append hlen, Lib.ok_bind, hrest, hmove, Lib.ok_bind,
    writePair_append hlast]
  refine ⟨_, rfl, h.maxCount, ?_, ?_, ?_⟩
  · rw [List.length_append]
    change m.count - 1 = _
    omega
  · have hroom := h.room
    change m.count - 1 < m.maxCount
    omega
  · have hroom := h.room
    change _ = _ ++ List.replicate (m.maxCount - (m.count - 1)) _
    rw [List.map_append, show m.maxCount - (m.count - 1) = m.maxCount - m.count + 1 by omega,
      List.replicate_succ]

/-- **`http_map_erase` takes the key out of the dictionary**, and says whether
it was there.  A key that is not there changes nothing. -/
theorem httpMapErase_holds (h : Holds m d) (k : Bytes) :
    ∃ m', httpMapErase m (some k) = .ok (m', (d.values.lookup (cstr k)).isSome) ∧
      Holds m' (Http.httpMapErase d k) := by
  obtain ⟨maxCount, l⟩ := d
  rw [Http.httpMapErase]
  dsimp only
  rcases Lib.Assoc.mem_or_exists_first (cstr k) l with hnot | ⟨before, w, after, rfl, hnot⟩
  · rw [Lib.Assoc.lookup_eq_none.2 hnot, Lib.Assoc.erase_of_not_mem hnot]
    refine ⟨m, ?_, h⟩
    rw [httpMapErase]
    split_ifs with hzero
    · rfl
    · have hcount : m.count = l.length := h.count
      rw [hcount, findPair_missing h.drop_zero hnot]
      rfl
  · rw [Lib.Assoc.lookup_append_cons hnot, Lib.Assoc.erase_append_cons hnot]
    exact erase_found h hnot

/-! ### The iterator -/

/-- The pair at the index of an entry.  It is within the block, which has one
pair more than there are entries. -/
theorem readPair_of_entries (h : Holds m d) {i : ℕ} {p : Bytes × Option Bytes}
    {rest : List (Bytes × Option Bytes)} (hdrop : d.values.drop i = p :: rest) :
    readPair m.values i = .ok ⟨some p.1, p.2⟩ := by
  have hi : i ≤ (d.values.map entry).length := by
    by_contra hlt
    rw [List.drop_eq_nil_of_le (by rw [List.length_map] at hlt; omega)] at hdrop
    cases hdrop
  have hvalues : m.values.drop i = some ⟨some p.1, p.2⟩ ::
      (rest.map entry ++ List.replicate (m.maxCount - m.count) (some nullPair)) := by
    rw [h.values, List.drop_append_of_le_length hi, ← List.map_drop, hdrop, List.map_cons,
      List.cons_append, entry]
  exact readPair_of_drop hvalues

/-- Behind the last pair the iterator ends itself, and keeps the pair it has
shown. -/
theorem httpMapNext_last {i : ℕ} {k v : Option Bytes} (hi : i + 1 = m.count) :
    httpMapNext ⟨some m, i, k, v⟩ = .ok (⟨some m, -1, k, v⟩, false) := by
  have hindex : ((i : ℤ) == -1) = false := beq_eq_false_iff_ne.2 (by omega)
  rw [httpMapNext, hindex, if_neg Bool.false_ne_true]
  exact if_pos (by rw [← hi]; simp)

/-- Before the last pair it goes one further and shows the next one.  The test
is against the count that the map has now, not when the iteration began. -/
theorem httpMapNext_step {i : ℕ} {k v : Option Bytes} {p : HttpPair} (hi : i + 1 < m.count)
    (hp : readPair m.values (i + 1) = .ok p) :
    httpMapNext ⟨some m, i, k, v⟩ = .ok (⟨some m, (i + 1 : ℕ), p.a, p.b⟩, true) := by
  have hindex : ((i : ℤ) == -1) = false := beq_eq_false_iff_ne.2 (by omega)
  have hmore : ¬(m.count : ℤ) - 1 ≤ i := by omega
  have hnat : ((i : ℤ) + 1).toNat = i + 1 := by omega
  rw [httpMapNext, hindex, if_neg Bool.false_ne_true]
  dsimp only
  rw [if_neg hmore, hnat, hp]
  rfl

/-- The rounds from an entry on see it and those behind it, by induction on
these: a step of the iterator leaves one entry less. -/
theorem rounds_of_drop (h : Holds m d) {p : Bytes × Option Bytes}
    {rest : List (Bytes × Option Bytes)} {i fuel : ℕ} (hdrop : d.values.drop i = p :: rest)
    (hfuel : rest.length + 1 < fuel) : rounds fuel ⟨some m, i, some p.1, p.2⟩ =
      .ok ((p :: rest).map fun q => (some q.1, q.2)) := by
  induction rest generalizing i fuel p with
  | nil =>
    obtain ⟨fuel, rfl⟩ : ∃ n, fuel = n + 2 := ⟨fuel - 2, by rw [List.length_nil] at hfuel; omega⟩
    have hcount : i + 1 = m.count := by
      have hlen := congrArg List.length hdrop
      rw [List.length_drop, List.length_singleton] at hlen
      rw [h.count]
      omega
    rw [rounds, if_pos (by simp [httpMapValid]), httpMapNext_last hcount, Lib.ok_bind]
    rfl
  | cons q rest ih =>
    rw [List.length_cons] at hfuel
    obtain ⟨fuel, rfl⟩ : ∃ n, fuel = n + 1 := ⟨fuel - 1, by omega⟩
    have hnext : d.values.drop (i + 1) = q :: rest := by
      rw [← List.drop_drop, hdrop, List.drop_one, List.tail_cons]
    have hcount : i + 1 < m.count := by
      have hlen := congrArg List.length hdrop
      rw [List.length_drop, List.length_cons, List.length_cons] at hlen
      rw [h.count]
      omega
    rw [rounds, if_pos (by simp [httpMapValid]),
      httpMapNext_step hcount (readPair_of_entries h hnext), Lib.ok_bind,
      ih hnext (by omega)]
    rfl

/-- **The loop over the map sees its entries, each once and in their order.**
The first is shown by the call that makes the iterator. -/
theorem visit_holds (h : Holds m d) : visit m = .ok (d.values.map fun q => (some q.1, q.2)) := by
  have hcount := h.count
  rw [visit, httpMapBegin]
  cases hl : d.values with
  | nil =>
    rw [hl, List.length_nil] at hcount
    rw [if_pos (by omega), Lib.ok_bind, rounds]
    rfl
  | cons p rest =>
    rw [hl, List.length_cons] at hcount
    have hdrop : d.values.drop 0 = p :: rest := hl
    rw [if_neg (by omega), readPair_of_entries h hdrop, Lib.ok_bind]
    exact rounds_of_drop h hdrop (by omega)

/-! ### Any calls -/

/-- A call on the map; the strings are those the caller passes. -/
def call (m : HttpMapT) : Op Bytes (Option Bytes) → Except Fault HttpMapT
  | .set k v => do return (← httpMapSet m (some k) v).1
  | .erase k => do return (← httpMapErase m (some k)).1

/-- What the functions of the map see of the strings of a call. -/
def seen : Op Bytes (Option Bytes) → Op Bytes (Option Bytes) := Op.map cstr (Option.map cstr)

/-- The map is a finite map in the order of insertion, and what `ops` leave. -/
structure Behaves (m : HttpMapT) (ops : List (Op Bytes (Option Bytes))) : Prop where
  /-- The keys of the pairs are distinct. -/
  distinct : ((m.values.take m.count).map fun c => c.bind HttpPair.a).Nodup
  /-- A pair is left. -/
  room : m.count < m.maxCount
  /-- A key has the value it was last set to. -/
  get : ∀ k, httpMapGet m (some k) = .ok (latest (cstr k) ops).join
  /-- A key that is there is erased, and nothing else changes. -/
  erase : ∀ k, ∃ m' l, httpMapErase m (some k) = .ok (m', (latest (cstr k) ops).isSome) ∧
    visit m = .ok l ∧ visit m' = .ok (l.filter fun p => p.1 != some (cstr k))
  /-- The loop sees the pairs that are there in the order in which their keys
  came in. -/
  visits : ∃ l : List (Bytes × Option Bytes), visit m = .ok (l.map fun p => (some p.1, p.2)) ∧
    (l.map Prod.fst).Nodup ∧ (∀ k v, (k, v) ∈ l ↔ latest k ops = some v) ∧
      (l.map Prod.fst).Pairwise fun j k => insertedAt j ops < insertedAt k ops

/-- Each call is the one on the association list, and the array holds its
result. -/
theorem call_holds (h : Holds m d) (o : Op Bytes (Option Bytes)) :
    ∃ m' d', call m o = .ok m' ∧ Holds m' d' ∧ d'.values = Op.apply d.values (seen o) := by
  cases o with
  | set k v =>
    obtain ⟨m', i, hm', hholds, -⟩ := httpMapSet_holds h k v
    exact ⟨m', _, by rw [call, hm']; rfl, hholds, rfl⟩
  | erase k =>
    obtain ⟨m', hm', hholds⟩ := httpMapErase_holds h k
    exact ⟨m', _, by rw [call, hm']; rfl, hholds, rfl⟩

/-- What an array holds is all that the getter, the loop and the count see of
it, so they answer as the association list does. -/
theorem behaves_of_holds {ops : List (Op Bytes (Option Bytes))} (h : Holds m d)
    (hd : d.values = replay ops) : Behaves m ops where
  distinct := by
    have htake : m.values.take m.count = d.values.map entry := by
      rw [h.values, List.take_left' (by rw [List.length_map, h.count])]
    have hkeys : (d.values.map entry).map (fun c => c.bind HttpPair.a) =
        (d.values.map Prod.fst).map some := by
      rw [List.map_map, List.map_map]
      rfl
    rw [htake, hkeys, hd]
    exact Lib.History.nodup_keys_replay.map (Option.some_injective _)
  room := h.room
  get k := by
    rw [httpMapGet_holds h, Http.httpMapGet, hd, Lib.History.lookup_replay]
  erase k := by
    obtain ⟨m', hm', hholds⟩ := httpMapErase_holds h k
    rw [hd, Lib.History.lookup_replay] at hm'
    refine ⟨m', _, hm', visit_holds h, ?_⟩
    have hnodup : (d.values.map Prod.fst).Nodup := by
      rw [hd]
      exact Lib.History.nodup_keys_replay
    rw [visit_holds hholds, Http.httpMapErase, Lib.Assoc.erase_eq_filter hnodup, List.filter_map]
    rfl
  visits := by
    refine ⟨d.values, visit_holds h, ?_⟩
    rw [hd]
    refine ⟨Lib.History.nodup_keys_replay, fun k v => ?_, Lib.History.pairwise_replay⟩
    rw [← Lib.Assoc.lookup_eq_some Lib.History.nodup_keys_replay, Lib.History.lookup_replay]

/-- **After any calls the map is the finite map in the order of insertion that
they say.** Each call keeps that the array holds the list, so the induction is
the one over the calls. -/
theorem calls_ordered {maxcount : ℤ} (hmax : 1 ≤ maxcount)
    (calls : List (Op Bytes (Option Bytes))) :
    ∃ m₀ m, httpMapNew maxcount = some m₀ ∧ calls.foldlM call m₀ = .ok m ∧
      Behaves m (calls.map seen) := by
  obtain ⟨m₀, hm₀, hholds⟩ := httpMapNew_holds hmax
  obtain ⟨m, hm, d, hd, hvalues⟩ := Lib.foldlM_ok
    (P := fun calls m => ∃ d, Holds m d ∧ d.values = replay (calls.map seen))
    ⟨_, hholds, rfl⟩ (fun calls m o ⟨d, hd, hvalues⟩ => by
      obtain ⟨m', d', hm', hholds', hvalues'⟩ := call_holds hd o
      refine ⟨m', hm', d', hholds', ?_⟩
      rw [hvalues', hvalues, List.map_append, List.map_singleton, Lib.History.replay_concat])
    calls
  exact ⟨m₀, m, hm₀, hm, behaves_of_holds hd hvalues⟩

/-- A map that starts with one pair, and a key that comes back. -/
def comingBack : List (Op Bytes (Option Bytes)) :=
  [.set [97] (some [49]), .set [98] none, .erase [97], .set [97] (some [50])]

/-- A map of one place, in which a key is set, erased and set again. -/
theorem calls_ordered_comingBack :
    (∃ m₀ m, httpMapNew 1 = some m₀ ∧ comingBack.foldlM call m₀ = .ok m ∧
      Behaves m (comingBack.map seen)) ∧
    ((httpMapNew 1).map fun m => comingBack.foldlM call m >>= visit) =
      some (.ok [(some [98], none), (some [97], some [50])]) :=
  ⟨calls_ordered (by decide) comingBack, by decide⟩

end MapArray
end Http
end Dukserver
