/-
# The bounds of a form that is encoded

Before each text `http_urlencode` (`libhttpd/http_urlencode.c`) doubles its buffer once at
most.  A text with its delimiter that begins below `1000 * 2 ^ c` fits if it ends below
`1000 * 2 ^ (c + 1)`, and a size of `1000 * 2 ^ 22` is no `int` any more; these are the
only ways to write behind the end (`writesInBounds_iff`).
-/

import Dukserver.Http.UrlEncodeBlocks

namespace Dukserver
namespace Http
namespace Blocks

open Lib (Bytes toInt32)
open Lib.Effects (Ends Post post_pure exec)
open Sys (Allocator Heap MemoryMap httpMalloc httpFree MEMORY_LEN)

/-- The lengths of the texts that are appended for an entry, each with its
delimiter. -/
def entrySizes (p : Bytes × Option Bytes) : List ℕ :=
  if p.1 = [] then [] else (entryPieces p).map fun q => q.1.length + 1

/-- The lengths of all texts that are appended. -/
def textSizes (m : HttpMap) : List ℕ := m.values.flatMap entrySizes

/-- Behind `s` bytes, the buffer has to be doubled once at most for each text. -/
def OneDoubling : ℕ → List ℕ → Prop
  | _, [] => True
  | s, n :: ns => (∀ c, s < 1000 * 2 ^ c → s + n < 1000 * 2 ^ (c + 1)) ∧ OneDoubling (s + n) ns

/-- The buffer has room for texts of these lengths. -/
def Room (ns : List ℕ) : Prop := ns.sum < 1000 * 2 ^ 21 ∧ OneDoubling 0 ns

/-- All bytes are written to an index below `encoded_maxsize`, however `malloc`
and `realloc` answer. -/
def WritesInBounds (m : HttpMap) : Prop :=
  ∀ (A : Allocator) (map : MemoryMap), (exec (httpUrlencode A m) ⟨map, []⟩).2.InBounds

variable {A : Allocator} {h t : Heap} {b b' : Encoded} {s quoted : Bytes} {delimiter : UInt8}
  {m : HttpMap} {p : Bytes × Option Bytes} {last maxsize : ℤ} {n k : ℕ} {ns all rest : List ℕ}

/-! ### The size of the buffer -/

/-- What `encoded_maxsize` becomes for a text that ends at `last`. -/
def grown (maxsize last : ℤ) : ℤ := if maxsize ≤ last then toInt32 (maxsize * 2) else maxsize

/-- The buffer of a size is as large as doubling makes it for `k` bytes. -/
def Capacity (maxsize : ℤ) (k : ℕ) : Prop :=
  ∃ c ≤ 21, maxsize = (1000 * 2 ^ c : ℕ) ∧ k < 1000 * 2 ^ c ∧ (c = 0 ∨ 1000 * 2 ^ c ≤ 2 * k)

/-- The buffer starts with 1000 bytes, never doubled. -/
theorem capacity_init : Capacity 1000 0 := ⟨0, by decide, by decide, by decide, .inl rfl⟩

/-- A buffer that is large enough is left as it is. -/
theorem grown_of_lt (hlast : last < maxsize) : grown maxsize last = maxsize :=
  if_neg (not_le.2 hlast)

/-- Below `1000 * 2 ^ 21`, twice the size is an `int`, and the buffer is doubled
once. -/
theorem grown_of_le {c : ℕ} (hc : c < 21) (hlast : 1000 * 2 ^ c ≤ k) :
    grown (1000 * 2 ^ c : ℕ) k = (1000 * 2 ^ (c + 1) : ℕ) := by
  have hpow : 2 ^ c ≤ 2 ^ 20 := Nat.pow_le_pow_right (by decide) (Nat.le_of_lt_succ hc)
  rw [grown, if_pos (Int.ofNat_le.2 hlast), pow_succ, ← Nat.mul_assoc, Nat.cast_mul _ 2]
  exact Lib.toInt32_of_bounds (by omega) (by omega)

/-- Twice `1000 * 2 ^ 21` is a negative `int`: the product wraps in 32 bits. -/
theorem grown_overflow (hlast : 1000 * 2 ^ 21 ≤ k) : grown (1000 * 2 ^ 21 : ℕ) k < 0 := by
  rw [grown, if_pos (Int.ofNat_le.2 hlast)]
  decide

/-- If doubling is enough from the least size on, it is enough from each larger
one.  The size that the buffer has is the least that is above the position, so
it decides. -/
theorem forall_doubling_iff {c : ℕ} (hk : k < 1000 * 2 ^ c) (hmin : c = 0 ∨ 1000 * 2 ^ c ≤ 2 * k) :
    (∀ c', k < 1000 * 2 ^ c' → k + n < 1000 * 2 ^ (c' + 1)) ↔ k + n < 1000 * 2 ^ (c + 1) := by
  refine ⟨fun h => h c hk, fun hlt c' hk' => ?_⟩
  have hle : 2 ^ c ≤ 2 ^ c' := by
    rcases hmin with rfl | hmin
    · exact Nat.one_le_two_pow
    · have hlt' : 2 ^ c < 2 ^ (c' + 1) := by
        rw [pow_succ]
        omega
      exact Nat.pow_le_pow_right (by decide)
        (Nat.le_of_lt_succ ((Nat.pow_lt_pow_iff_right (by decide)).1 hlt'))
  rw [pow_succ] at hlt ⊢
  omega

/-- **A text fits the buffer if doubling it once is enough**, and the size is
still an `int`.  The size is the least of its kind above the position, so this
can be said without it. -/
theorem Capacity.lt_grown_iff (hc : Capacity maxsize k) :
    (k + n : ℕ) < grown maxsize (k + n : ℕ) ↔
      k + n < 1000 * 2 ^ 21 ∧ ∀ c, k < 1000 * 2 ^ c → k + n < 1000 * 2 ^ (c + 1) := by
  obtain ⟨c, hc21, rfl, hk, hmin⟩ := hc
  have hpow : 2 ^ c ≤ 2 ^ 21 := Nat.pow_le_pow_right (by decide) hc21
  rw [forall_doubling_iff hk hmin]
  rcases Nat.lt_or_ge (k + n) (1000 * 2 ^ c) with hlt | hfull
  · rw [grown_of_lt (Int.ofNat_lt.2 hlt), Nat.cast_lt, pow_succ]
    exact iff_of_true hlt ⟨by omega, by omega⟩
  rcases hc21.lt_or_eq with hc21 | rfl
  · have hpow' : 2 ^ (c + 1) ≤ 2 ^ 21 := Nat.pow_le_pow_right (by decide) hc21
    rw [grown_of_le hc21 hfull, Nat.cast_lt]
    exact ⟨fun hfits => ⟨by omega, hfits⟩, And.right⟩
  · have hneg := grown_overflow hfull
    exact iff_of_false (by omega) fun h => by omega

/-- The size that is enough is the capacity afterwards: it was doubled only
because the half was too small. -/
theorem Capacity.of_fits (hc : Capacity maxsize k)
    (hfits : (k + n : ℕ) < grown maxsize (k + n : ℕ)) :
    Capacity (grown maxsize (k + n : ℕ)) (k + n) := by
  obtain ⟨c, hc21, rfl, hk, hmin⟩ := hc
  rcases Nat.lt_or_ge (k + n) (1000 * 2 ^ c) with hlt | hfull
  · rw [grown_of_lt (Int.ofNat_lt.2 hlt)]
    exact ⟨c, hc21, rfl, hlt, hmin.imp_right fun h => by omega⟩
  rcases hc21.lt_or_eq with hc21 | rfl
  · rw [grown_of_le hc21 hfull, Nat.cast_lt] at hfits
    rw [grown_of_le hc21 hfull]
    refine ⟨c + 1, hc21, rfl, hfits, .inr ?_⟩
    rw [pow_succ]
    omega
  · have hneg := grown_overflow hfull
    omega

/-- Doubling once is enough for every text of a list if it is for all but the
last, and then for the last at the place where the others end. -/
theorem oneDoubling_append : OneDoubling k (ns ++ [n]) ↔ OneDoubling k ns ∧
    ∀ c, k + ns.sum < 1000 * 2 ^ c → k + ns.sum + n < 1000 * 2 ^ (c + 1) := by
  induction ns generalizing k with
  | nil => simp [OneDoubling]
  | cons n' ns ih => rw [List.cons_append, OneDoubling, OneDoubling, ih, List.sum_cons, and_assoc,
      Nat.add_assoc k]

/-- **A further text has room** if there was room for the others and doubling
once is enough.  The bound of an `int` holds for the sum, as it grows. -/
theorem room_append : Room (ns ++ [n]) ↔ Room ns ∧ ns.sum + n < 1000 * 2 ^ 21 ∧
    ∀ c, ns.sum < 1000 * 2 ^ c → ns.sum + n < 1000 * 2 ^ (c + 1) := by
  rw [Room, Room, oneDoubling_append, List.sum_append, List.sum_singleton]
  simp only [Nat.zero_add]
  constructor
  · rintro ⟨hsum, hone, hn⟩
    exact ⟨⟨by omega, hone⟩, hsum, hn⟩
  · rintro ⟨⟨-, hone⟩, hsum, hn⟩
    exact ⟨hsum, hone, hn⟩

/-- What has room has room without its end: the buffer is looked at text by
text. -/
theorem Room.of_append (hroom : Room (ns ++ rest)) : Room ns := by
  induction rest using List.reverseRecOn with
  | nil => rwa [List.append_nil] at hroom
  | append_singleton rest n ih =>
    rw [← List.append_assoc, room_append] at hroom
    exact ih hroom.1

/-- Without sizes that are no `int`, this is what fits the buffer of
`Http.httpUrlencode`, where the size is a number without a bound. -/
theorem fits_iff {c : ℕ} (hk : k < 1000 * 2 ^ c) (hmin : c = 0 ∨ 1000 * 2 ^ c ≤ 2 * k) :
    Fits (1000 * 2 ^ c) k ns ↔ OneDoubling k (ns.map (· + 1)) := by
  induction ns generalizing k c with
  | nil => exact Iff.rfl
  | cons n ns ih =>
    rw [List.map_cons, Fits, OneDoubling, forall_doubling_iff hk hmin]
    split_ifs with hfull
    · rw [Nat.mul_assoc, ← pow_succ]
      exact and_congr_right fun hlt => ih hlt (.inr (by rw [pow_succ]; omega))
    · have hlt : k + (n + 1) < 1000 * 2 ^ (c + 1) := by
        rw [pow_succ]
        omega
      rw [ih (not_le.1 hfull) (hmin.imp_right fun h => by omega)]
      exact (and_iff_right hlt).symm

/-- **What is in the buffer is what `Http.httpUrlencode` returns.**  The two
differ in what is memory, and a form that has room and loses no block shows
nothing of that. -/
theorem httpUrlencode_text {M : Sys.Blocks} (hkeys : ∀ p ∈ m.values, p.1 ≠ [])
    (hone : Sys.GivesBack A ∨ ∀ p ∈ m.values, p.1 = [] ∨ hasValue p = false)
    (hroom : Room (textSizes m)) (ho : Sys.Owns h M) (hfree : M.card + 2 ≤ MEMORY_LEN) :
    Ends (httpUrlencode A m) h fun b t => Sys.Owns t (b.block + M) ∧
      Http.httpUrlencode (fun _ => .value) m = .ok b.text := by
  refine (httpUrlencode_ends hone ho hfree).mono ?_
  rintro b t ⟨ht, htext⟩
  refine ⟨ht, ?_⟩
  refine (httpUrlencode_eq_ok _ hkeys _).2 ⟨⟨?_, ?_⟩, fun _ _ _ => rfl⟩
  · refine (fits_iff (c := 0) (by decide) (.inl rfl)).2 ?_
    have hsizes : textSizes m =
        ((m.values.flatMap entryPieces).map fun q => q.1.length).map (· + 1) := by
      rw [textSizes, List.map_map, List.map_flatMap]
      exact List.flatMap_congr fun p hp => if_neg (hkeys p hp)
    exact hsizes ▸ hroom.2
  · rw [htext]
    exact List.flatMap_congr fun p hp => if_neg (hkeys p hp)

/-! ### What one text writes -/

/-- A text of `n` bytes has been appended. -/
structure Appended (n : ℕ) (b : Encoded) (h : Heap) (b' : Encoded) (t : Heap) : Prop where
  length : b'.text.length = b.text.length + n
  maxsize : b'.maxsize = grown b.maxsize (b.text.length + n : ℕ)
  inBounds : t.InBounds ↔ h.InBounds ∧ (b.text.length + n : ℕ) < b'.maxsize

/-- The text is as before when the buffer has grown, or was large enough, and
the call makes no write: the bounds are kept as they were, also where it fails. -/
theorem reserve_post (A : Allocator) (last : ℤ) (b : Encoded) (h : Heap) :
    Post (reserve A last b) h
      (fun b' t => b'.text = b.text ∧ b'.maxsize = grown b.maxsize last ∧
        (t.InBounds ↔ h.InBounds))
      fun _ t => t.InBounds ↔ h.InBounds := by
  rw [reserve, grown]
  split_ifs
  · refine ((Sys.httpRealloc_post A b.p _ h).mono ?_ ?_).seq fun p t ht => post_pure ⟨rfl, rfl, ht⟩
    · exact fun _ _ ht => Sys.inBounds_called ht.2
    · rintro _ _ rfl
      exact Iff.rfl
  · exact post_pure ⟨rfl, rfl, Iff.rfl⟩

/-- The three writes of a text, its delimiter, its bytes and the NUL, reach up
to its last byte and the one behind it.  So the last of them decides whether all
are in bounds. -/
theorem three_writes (hn : 0 < n) (P : Prop) :
    ((∀ i < 1, 0 ≤ ((k + n : ℕ) : ℤ) + (i : ℕ) ∧ ((k + n : ℕ) : ℤ) + i < maxsize) ∧
      (∀ i < 1, 0 ≤ ((k + n : ℕ) : ℤ) - 1 + (i : ℕ) ∧ ((k + n : ℕ) : ℤ) - 1 + i < maxsize) ∧
      (∀ i < n, 0 ≤ (k : ℤ) + (i : ℕ) ∧ (k : ℤ) + i < maxsize) ∧ P) ↔
        P ∧ (k + n : ℕ) < maxsize := by
  constructor
  · rintro ⟨hlast, -, -, hP⟩
    have hlt := (hlast 0 Nat.one_pos).2
    exact ⟨hP, by omega⟩
  · rintro ⟨hP, hlt⟩
    refine ⟨fun i hi => ?_, fun i hi => ?_, fun i hi => ?_, hP⟩ <;> omega

/-- A quoted text and its delimiter are appended: the account grows by its
length with the delimiter.  The sizes are computed in `int`, which is large
enough by the hypothesis. -/
theorem appendQuoted_post (hint : b.text.length + (quoted.length + 1) < 2 ^ 31) :
    Post (appendQuoted A quoted delimiter b) h (Appended (quoted.length + 1) b h)
      fun _ t => t.InBounds ↔ h.InBounds := by
  have hsize : b.size = b.text.length := Lib.toInt32_of_bounds (by omega) (by omega)
  have hlast : toInt32 (b.size + (quoted.length + 1 : ℕ)) =
      (b.text.length + (quoted.length + 1) : ℕ) := by
    rw [hsize, ← Nat.cast_add]
    exact Lib.toInt32_of_bounds (by omega) (by omega)
  have hdelimiter : toInt32 ((b.text.length + (quoted.length + 1) : ℕ) - 1) =
      (b.text.length + (quoted.length + 1) : ℕ) - 1 := Lib.toInt32_of_bounds (by omega) (by omega)
  rw [appendQuoted, hlast]
  refine (reserve_post A _ b h).seq ?_
  rintro b' t ⟨htext, hmax, hin⟩
  have hsize' : b'.size = b.text.length := by rw [Encoded.size, htext, ← Encoded.size, hsize]
  rw [hdelimiter, hsize']
  refine (Sys.writeBytes_post ..).seq fun _ t h₁ => (Sys.writeBytes_post ..).seq fun _ t h₂ =>
    (Sys.writeBytes_post ..).seq fun _ t h₃ => post_pure ⟨?_, hmax, ?_⟩
  · simp [htext]
  · rw [h₃, h₂, h₁, hin, three_writes (Nat.succ_pos _)]

/-! ### What all texts write -/

/-- Texts of these lengths have been appended. -/
structure Written (done : List ℕ) (b : Encoded) (t : Heap) : Prop where
  length : b.text.length = done.sum
  inBounds : t.InBounds ↔ Room done
  capacity : Room done → Capacity b.maxsize done.sum

/-- The process has ended behind some of the texts. -/
def Partly (all : List ℕ) (t : Heap) : Prop := ∃ done, done <+: all ∧ (t.InBounds ↔ Room done)

/-- **The next text keeps the account**: what was written before was in bounds
if there was room for it, and this text is if doubling once is enough. -/
theorem Written.append (hw : Written ns b h) (ha : Appended n b h b' t) :
    Written (ns ++ [n]) b' t := by
  have hiff : t.InBounds ↔ Room (ns ++ [n]) := by
    rw [ha.inBounds, hw.inBounds, room_append, ha.maxsize, hw.length]
    exact and_congr_right fun hroom => (hw.capacity hroom).lt_grown_iff
  have hsum : (ns ++ [n]).sum = ns.sum + n := by rw [List.sum_append, List.sum_singleton]
  refine ⟨by rw [ha.length, hw.length, hsum], hiff, fun hroom => ?_⟩
  have hfits := (ha.inBounds.1 (hiff.2 hroom)).2
  rw [hsum, ha.maxsize, hw.length]
  rw [ha.maxsize, hw.length] at hfits
  exact (hw.capacity hroom.of_append).of_fits hfits

/-- A call of the ledger writes nothing, so the account stays. -/
theorem Written.called {c : Sys.Call} (hw : Written ns b h) (hc : Sys.Called c h t) :
    Written ns b t :=
  ⟨hw.length, (Sys.inBounds_called hc).trans hw.inBounds, hw.capacity⟩

/-- A block is freed and the account stays.  Where the call fails, what was
written is an initial part of the texts. -/
theorem httpFree_written (hw : Written ns b h) (hall : ns <+: all) (q : ℕ) :
    Post (httpFree q) h (fun _ t => Written ns b t) fun _ t => Partly all t := by
  refine (Sys.ledgerCall_post (.free q) h).mono (fun _ t hc => hw.called hc) ?_
  rintro _ _ rfl
  exact ⟨ns, hall, hw.inBounds⟩

/-- A block is asked for and the account stays, in the same way. -/
theorem httpMalloc_written (hw : Written ns b h) (hall : ns <+: all) (size : ℤ) :
    Post (httpMalloc A size) h (fun _ t => Written ns b t) fun _ t => Partly all t := by
  refine (Sys.httpMalloc_post A size h).mono (fun _ t ht => hw.called ht.2) ?_
  rintro _ _ rfl
  exact ⟨ns, hall, hw.inBounds⟩

/-- A text is quoted and appended: its quoted length is added to the account.
Each of the calls between can fail, and each time an initial part of the texts
is written. -/
theorem appendText_written (hw : Written ns b h)
    (hall : ns ++ [(Http.httpQuote s).length + 1] <+: all) (hint : all.sum < 2 ^ 31) :
    Post (appendText A s delimiter b) h
      (fun r t => Written (ns ++ [(Http.httpQuote s).length + 1]) r.2 t)
      fun _ t => Partly all t := by
  have hns : ns <+: all := (List.prefix_append ..).trans hall
  refine (httpQuote_post (httpMalloc_written hw hns)).seq ?_
  rintro quoted t ⟨hw, hquoted⟩
  have hsum : b.text.length + (quoted.bytes.length + 1) < 2 ^ 31 := by
    obtain ⟨rest, rfl⟩ := hall
    rw [List.sum_append, List.sum_append, List.sum_singleton] at hint
    rw [hw.length, hquoted]
    omega
  refine ((appendQuoted_post hsum).mono (fun b' t ha => ?_) fun _ t hsame => ?_).seq
    fun b' t hw => post_pure hw
  · rw [← hquoted]
    exact hw.append ha
  · exact ⟨ns, hns, hsame.trans hw.inBounds⟩

/-- **An entry is written**, its key and its value if it has one, or nothing at
all for an empty key. -/
theorem encodeEntry_written (hw : Written ns b h) (hall : ns ++ entrySizes p <+: all)
    (hint : all.sum < 2 ^ 31) :
    Post (encodeEntry A b p) h (fun b' t => Written (ns ++ entrySizes p) b' t)
      fun _ t => Partly all t := by
  rw [entrySizes] at hall ⊢
  rw [encodeEntry]
  split_ifs at hall ⊢ with hk
  · exact post_pure (by rwa [List.append_nil])
  obtain ⟨k, v⟩ := p
  have hkey : ns ++ [(Http.httpQuote k).length + 1] <+: all := by
    rw [entryPieces, List.map_cons, List.append_cons] at hall
    exact (List.prefix_append ..).trans hall
  refine (appendText_written hw hkey hint).seq ?_
  rintro ⟨k', b₁⟩ t hw
  refine (httpFree_written hw hkey _).seq fun _ t hw => ?_
  rcases v with _ | v
  · exact post_pure hw
  by_cases hv : v = []
  · simp only [entryPieces, if_pos hv]
    exact post_pure hw
  simp only [entryPieces, if_neg hv, List.map_cons, List.map_nil] at hall ⊢
  rw [List.append_cons] at hall ⊢
  refine (appendText_written hw hall hint).seq ?_
  rintro ⟨v', b₂⟩ t hw
  exact (httpFree_written hw hall _).seq fun _ t hw => post_pure hw

/-- **Everything that is written is in bounds exactly if there is room for it.**
A run that is cut short by a missing block has written an initial part. -/
theorem httpUrlencode_written (A : Allocator) (map : MemoryMap)
    (hint : (textSizes m).sum < 2 ^ 31) :
    Post (httpUrlencode A m) ⟨map, []⟩ (fun b t => Written (textSizes m) b t)
      fun _ t => Partly (textSizes m) t := by
  have hstart : Written [] ⟨0, 1000, []⟩ ⟨map, []⟩ :=
    ⟨rfl, iff_of_true (fun e he => absurd he List.not_mem_nil) ⟨by decide, trivial⟩,
      fun _ => capacity_init⟩
  refine (httpMalloc_written hstart List.nil_prefix 1000).seq fun a t ht => ?_
  have ht' : Written [] ⟨a, 1000, []⟩ t := ⟨ht.length, ht.inBounds, ht.capacity⟩
  refine (Post.foldlM (I := fun entries b t => ∃ done,
    done ++ entries.flatMap entrySizes = textSizes m ∧ Written done b t) ?_
      ⟨[], rfl, ht'⟩).mono ?_ fun _ _ h => h
  · rintro p entries b t ⟨done, hdone, hw⟩
    rw [List.flatMap_cons, ← List.append_assoc] at hdone
    exact (encodeEntry_written hw ⟨_, hdone⟩ hint).mono (fun b' t hw => ⟨_, hdone, hw⟩)
      fun _ _ h => h
  · rintro b t ⟨done, hdone, hw⟩
    rw [List.flatMap_nil, List.append_nil] at hdone
    rwa [← hdone]

/-- A form that has room is written in bounds, whatever `malloc` answers: every
initial part of it has room too. -/
theorem writesInBounds_of_room (hint : (textSizes m).sum < 2 ^ 31) (hroom : Room (textSizes m)) :
    WritesInBounds m := by
  intro A map
  rcases (httpUrlencode_written A map hint).cases with
    ⟨b, t, hexec, hw⟩ | ⟨e, t, hexec, done, ⟨rest, hall⟩, hiff⟩ <;> rw [hexec]
  · exact hw.inBounds.2 hroom
  · exact hiff.2 (Room.of_append (hall ▸ hroom))

/-- All texts are written if `malloc` gives out again what has just been freed,
so with that allocator the bounds speak of the whole form. -/
theorem room_of_writesInBounds (hint : (textSizes m).sum < 2 ^ 31) (hwrites : WritesInBounds m) :
    Room (textSizes m) := by
  have hends := httpUrlencode_ends (m := m) (.inl Sys.givesBack_lastFreed) Sys.owns_init (by decide)
  obtain ⟨b, t, hexec, -, hw⟩ := hends.and_post (httpUrlencode_written _ _ hint)
  have hin := hwrites Sys.lastFreed Sys.httpInit
  have hstart : (⟨Sys.httpInit, []⟩ : Heap) = .init := rfl
  rw [hstart, hexec] at hin
  exact hw.inBounds.1 hin

/-- **Every byte is written in bounds exactly if doubling the buffer once is
enough for each text and no size reaches `1000 * 2 ^ 21`.** -/
theorem writesInBounds_iff (m : HttpMap) (hint : (textSizes m).sum < 2 ^ 31) :
    WritesInBounds m ↔ Room (textSizes m) :=
  ⟨room_of_writesInBounds hint, writesInBounds_of_room hint⟩

/-- A form of fewer than 2000 bytes has room: 1000 bytes are doubled once. -/
theorem room_of_lt (hlt : ns.sum < 2000) : Room ns := by
  have hone : ∀ k, k + ns.sum < 2000 → OneDoubling k ns := by
    clear hlt
    induction ns with
    | nil => exact fun _ _ => trivial
    | cons n ns ih =>
      intro k hk
      rw [List.sum_cons] at hk
      refine ⟨fun c _ => ?_, ih _ (by omega)⟩
      have hpow : 2 ^ 1 ≤ 2 ^ (c + 1) := Nat.pow_le_pow_right (by decide) (Nat.le_add_left 1 c)
      omega
  exact ⟨by omega, hone 0 (by omega)⟩

/-- `{"title": "a+b", "tag": NULL, "": "b"}`. -/
theorem writesInBounds_page : WritesInBounds ⟨100, [([116, 105, 116, 108, 101], some [97, 43, 98]),
    ([116, 97, 103], none), ([], some [98])]⟩ :=
  (writesInBounds_iff _ (by decide)).2 (room_of_lt (by decide))

/-- A text of safe bytes is not changed by quoting, byte by byte.  So its length
is what it was, and the bounds can be stated by the lengths alone. -/
theorem httpQuote_of_safe (hs : ∀ c ∈ s, c ∈ alwaysSafeBuf) : Http.httpQuote s = s := by
  induction s with
  | nil => rfl
  | cons c s ih =>
    rw [Http.httpQuote, List.flatMap_cons, quoteChar, if_pos (hs c (List.mem_cons_self ..)),
      ← Http.httpQuote, ih fun c' hc' => hs c' (List.mem_cons_of_mem _ hc')]
    rfl

/-- A key that need not be quoted, and no value: one text, with its delimiter. -/
theorem textSizes_key (maxcount : ℕ) (hk : s ≠ []) (hs : ∀ c ∈ s, c ∈ alwaysSafeBuf) :
    textSizes ⟨maxcount, [(s, none)]⟩ = [s.length + 1] := by
  rw [textSizes, List.flatMap_singleton, entrySizes, if_neg hk, entryPieces, httpQuote_of_safe hs,
    List.map_singleton]

/-- A key of 2000 letters, for which the buffer is doubled to 2000 bytes and not
a second time: the last letter and the NUL are behind its end. -/
theorem not_writesInBounds_long : ¬WritesInBounds ⟨100, [(.replicate 2000 97, none)]⟩ := by
  intro hwrites
  have hsizes : textSizes ⟨100, [(.replicate 2000 97, none)]⟩ = [2000 + 1] := by
    have hsafe : ∀ c ∈ (.replicate 2000 97 : Bytes), c ∈ alwaysSafeBuf := fun c hc => by
      rw [List.eq_of_mem_replicate hc]
      decide
    have hlength : 0 < (.replicate 2000 97 : Bytes).length := by
      rw [List.length_replicate]
      decide
    rw [textSizes_key 100 (List.length_pos_iff.1 hlength) hsafe, List.length_replicate]
  have hroom := room_of_writesInBounds (by rw [hsizes]; decide) hwrites
  rw [hsizes] at hroom
  exact absurd (hroom.2.1 0 (by decide)) (by decide)

end Blocks
end Http
end Dukserver
