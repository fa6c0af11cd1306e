/-
# Searching a buffer

`libhttpd/http_string.c`, and `strstr` and `strncmp` as the parser uses them.
`mem` is the buffer of a content from its start to the end of its memory and a
pointer is an index into it, so a search that leaves its line reads what really
lies there.  The search functions differ in what they look for and in their
direction only, and a negative length is as good as none for all of them.
-/

import Dukserver.Http.Common

namespace Dukserver
namespace Http

open Lib (Bytes byteAt cstr slice isalpha isspace isdigit)

/-- The first place in `s`, …, `s + len - 1` with such a byte. -/
def scan (p : UInt8 → Bool) (mem : Bytes) (s len : ℕ) : Option ℕ :=
  (List.range' s len).find? fun i => p (byteAt mem i)

/-- The last place. -/
def rscan (p : UInt8 → Bool) (mem : Bytes) (s : ℕ) : ℕ → Option ℕ
  | 0 => none
  | len + 1 => if p (byteAt mem (s + len)) then some (s + len) else rscan p mem s len

/-- `http_find_char`. -/
def httpFindChar (mem : Bytes) (s : ℕ) (ch : UInt8) (len : ℕ) : Option ℕ := scan (· == ch) mem s len

/-- `http_find_alpha`. -/
def httpFindAlpha (mem : Bytes) (s len : ℕ) : Option ℕ := scan isalpha mem s len

/-- `http_find_digit`. -/
def httpFindDigit (mem : Bytes) (s len : ℕ) : Option ℕ := scan isdigit mem s len

/-- `http_find_nwhite`. -/
def httpFindNwhite (mem : Bytes) (s len : ℕ) : Option ℕ := scan (fun c => !isspace c) mem s len

/-- `http_rfind_nwhite`. -/
def httpRfindNwhite (mem : Bytes) (s len : ℕ) : Option ℕ := rscan (fun c => !isspace c) mem s len

/-- `strstr`, which looks no further than the first NUL. -/
def strstr (mem : Bytes) (s : ℕ) (pat : Bytes) : Option ℕ :=
  (Lib.indexOf pat (cstr (mem.drop s))).map (s + ·)

/-- `strncmp(p, pat, strlen(pat)) == 0`. -/
def startsWith (mem : Bytes) (p : ℕ) (pat : Bytes) : Bool := pat.isPrefixOf (mem.drop p)

variable {p : UInt8 → Bool} {mem : Bytes} {s len i : ℕ}

/-- What a search finds: the first place in its range where the predicate is
true. -/
theorem scan_eq_some : scan p mem s len = some i ↔
    p (byteAt mem i) = true ∧ (s ≤ i ∧ i < s + len) ∧
      ∀ j, s ≤ j → j < i → p (byteAt mem j) = false := by
  rw [scan, List.find?_range'_eq_some, List.mem_range'_1]
  simp only [Bool.not_eq_true']

/-- A byte behind the start of a line is one of the line. -/
theorem byteAt_add {j : ℕ} : byteAt mem (s + j) = (mem.drop s).getD j 0 := by
  simp [byteAt]

/-- The byte behind a known text. -/
theorem byteAt_of_drop {xs ys : Bytes} {y : UInt8} (h : mem.drop s = xs ++ y :: ys) :
    byteAt mem (s + xs.length) = y := by
  rw [byteAt_add, h]
  simp

/-- A byte of a known text. -/
theorem byteAt_add_of_drop {xs ys : Bytes} {k : ℕ} (h : mem.drop s = xs ++ ys)
    (hk : k < xs.length) : byteAt mem (s + k) = xs[k] := by
  rw [byteAt_add, h, List.getD_eq_getElem?_getD, List.getElem?_append_left hk,
    List.getElem?_eq_getElem hk, Option.getD_some]

/-- A line without its first part. -/
theorem drop_of_drop {xs ys : Bytes} (h : mem.drop s = xs ++ ys) :
    mem.drop (s + xs.length) = ys := by
  rw [← List.drop_drop, h, List.drop_left]

/-- And without the byte behind that. -/
theorem drop_cons_of_drop {xs ys : Bytes} {y : UInt8} (h : mem.drop s = xs ++ y :: ys) :
    mem.drop (s + xs.length + 1) = ys := by
  have hcons : mem.drop s = (xs ++ [y]) ++ ys := by simpa using h
  have hdrop := drop_of_drop hcons
  rwa [List.length_append, List.length_singleton, ← Nat.add_assoc] at hdrop

/-- Where the text is known, a search is computed by it: it passes over what it
does not look for and finds the next byte. -/
theorem scan_of_drop {xs ys : Bytes} {y : UInt8} (h : mem.drop s = xs ++ y :: ys)
    (hx : ∀ x ∈ xs, p x = false) (hy : p y = true) (hlen : xs.length < len) :
    scan p mem s len = some (s + xs.length) := by
  rw [scan_eq_some, byteAt_of_drop h]
  refine ⟨hy, ⟨by omega, by omega⟩, fun j hj hlt => ?_⟩
  obtain ⟨k, rfl⟩ : ∃ k, j = s + k := ⟨j - s, by omega⟩
  rw [byteAt_add_of_drop h (by omega)]
  exact hx _ (List.getElem_mem _)

/-- A search for what is not there finds nothing in its range. -/
theorem scan_none_of_drop {xs ys : Bytes} (h : mem.drop s = xs ++ ys)
    (hx : ∀ x ∈ xs, p x = false) : scan p mem s xs.length = none := by
  rw [scan, List.find?_range'_eq_none]
  intro i hi hlt
  obtain ⟨k, rfl⟩ : ∃ k, i = s + k := ⟨i - s, by omega⟩
  rw [byteAt_add_of_drop h (by omega), hx _ (List.getElem_mem _), Bool.not_false]

/-- A search for the first byte that `q` is false of finds what `dropWhile`
leaves. -/
theorem scan_of_dropWhile {q : UInt8 → Bool} {l t rest : Bytes} {c : UInt8}
    (hpq : ∀ c, p c = !q c) (h : mem.drop s = l ++ rest) (hl : l.dropWhile q = c :: t) :
    ∃ n, scan p mem s l.length = some (s + n) ∧ mem.drop (s + n) = (c :: t) ++ rest ∧
      l.length = n + (c :: t).length := by
  have hsplit := (List.takeWhile_append_dropWhile (p := q) (l := l)).symm
  rw [hl] at hsplit
  have hskip : ∀ b ∈ l.takeWhile q, p b = false := fun b hb => by
    rw [hpq, List.mem_takeWhile_imp hb, Bool.not_true]
  have hhead := List.head?_dropWhile_not q l
  rw [hl, List.head?_cons] at hhead
  generalize l.takeWhile q = xs at hsplit hskip
  have hat : mem.drop s = xs ++ c :: (t ++ rest) := by rw [h, hsplit, List.append_assoc]; rfl
  have hlen : l.length = xs.length + (c :: t).length := by rw [hsplit, List.length_append]
  refine ⟨xs.length, scan_of_drop hat hskip ?_ ?_, drop_of_drop hat, hlen⟩
  · rw [hpq, hhead, Bool.not_false]
  · rw [hlen, List.length_cons]
    omega

/-- It finds nothing if `dropWhile` leaves nothing. -/
theorem scan_none_of_dropWhile {q : UInt8 → Bool} {l rest : Bytes} (hpq : ∀ c, p c = !q c)
    (h : mem.drop s = l ++ rest) (hl : l.dropWhile q = []) : scan p mem s l.length = none :=
  scan_none_of_drop h fun b hb => by rw [hpq, List.dropWhile_eq_nil_iff.1 hl b hb, Bool.not_true]

/-- What is copied from a known place is the text there. -/
theorem slice_of_drop {xs ys : Bytes} (h : mem.drop s = xs ++ ys) :
    slice mem s (s + xs.length) = xs := by
  rw [slice, h, Nat.add_sub_cancel_left, List.take_left]

/-- A non-empty copy starts with the byte it is copied from. -/
theorem head?_slice {e : ℕ} (hse : s < e) (hs : s < mem.length) :
    (slice mem s e).head? = some (byteAt mem s) := by
  rw [slice, List.head?_take, if_neg (by omega), List.head?_drop, byteAt]
  simp [hs]

variable {line tail : Bytes} {ch : UInt8}

/-- A search to the end of a line stays in it, whatever stands behind, as it
looks at no place from the end on. -/
theorem scan_append : scan p (line ++ tail) s (line.length - s) =
    scan p line s (line.length - s) := by
  have hbyte : ∀ j < line.length, byteAt (line ++ tail) j = byteAt line j := fun j hj => by
    rw [byteAt, byteAt, List.getD_eq_getElem?_getD, List.getElem?_append_left hj,
      List.getD_eq_getElem?_getD]
  refine Option.ext fun i => ?_
  show scan p (line ++ tail) s (line.length - s) = some i ↔
    scan p line s (line.length - s) = some i
  rw [scan_eq_some, scan_eq_some]
  constructor
  · rintro ⟨hi, hlt, hbefore⟩
    refine ⟨by rwa [← hbyte i (by omega)], hlt, fun j hj hji => ?_⟩
    rw [← hbyte j (by omega)]
    exact hbefore j hj hji
  · rintro ⟨hi, hlt, hbefore⟩
    refine ⟨by rwa [hbyte i (by omega)], hlt, fun j hj hji => ?_⟩
    rw [hbyte j (by omega)]
    exact hbefore j hj hji

/-- A search that finds something divides the line there: it has passed over
what stands before, and stops at the byte it looks for. -/
theorem scan_split (h : scan p line s (line.length - s) = some i) :
    ∃ xs y ys, line.drop s = xs ++ y :: ys ∧ i = s + xs.length ∧
      (∀ x ∈ xs, p x = false) ∧ p y = true := by
  obtain ⟨hi, hlt, hbefore⟩ := scan_eq_some.1 h
  have hlen : i - s < (line.drop s).length := by
    rw [List.length_drop]
    omega
  have hget : ∀ j, ∀ hj : j < (line.drop s).length, (line.drop s)[j] = byteAt line (s + j) :=
    fun j hj => by
      rw [byteAt_add, List.getD_eq_getElem?_getD, List.getElem?_eq_getElem hj, Option.getD_some]
  refine ⟨(line.drop s).take (i - s), (line.drop s)[i - s], (line.drop s).drop (i - s + 1), ?_, ?_,
    ?_, ?_⟩
  · rw [List.getElem_cons_drop, List.take_append_drop]
  · rw [List.length_take]
    omega
  · intro x hx
    obtain ⟨j, hj, rfl⟩ := List.mem_iff_getElem.1 hx
    rw [List.length_take] at hj
    rw [List.getElem_take, hget j (by omega)]
    exact hbefore _ (by omega) (by omega)
  · rw [hget, show s + (i - s) = i by omega]
    exact hi

/-- A byte that no comparison finds is not in the text. -/
theorem not_mem_of_beq {xs : Bytes} (h : ∀ x ∈ xs, (x == ch) = false) : ch ∉ xs := fun hmem =>
  beq_eq_false_iff_ne.1 (h ch hmem) rfl

/-- And the other way round. -/
theorem beq_of_not_mem {xs : Bytes} (h : ch ∉ xs) : ∀ x ∈ xs, (x == ch) = false := by
  rintro x hx
  rw [beq_eq_false_iff_ne]
  rintro rfl
  exact h hx

/-- What is copied from a line does not depend on what stands behind it. -/
theorem slice_append {xs ys : Bytes} (h : line.drop s = xs ++ ys) :
    slice (line ++ tail) s (s + xs.length) = xs := by
  have htail : (line ++ tail).drop s = xs ++ (ys ++ tail.drop (s - line.length)) := by
    rw [List.drop_append, h, List.append_assoc]
  exact slice_of_drop htail

/-- A byte is not found in a text exactly if it is not there.  The search goes
over the whole length, zero bytes included. -/
theorem httpFindChar_eq_none : httpFindChar mem 0 ch mem.length = none ↔ ch ∉ mem := by
  rw [httpFindChar, scan, List.find?_range'_eq_none]
  constructor
  · intro h hmem
    obtain ⟨i, hi, hget⟩ := List.mem_iff_getElem.1 hmem
    have hne := h i (Nat.zero_le i) (by omega)
    rw [byteAt, List.getD_eq_getElem?_getD, List.getElem?_eq_getElem hi, hget] at hne
    simp at hne
  · intro h i _ hi
    have hi' : i < mem.length := by omega
    have hne : mem[i] ≠ ch := fun he => h (he ▸ List.getElem_mem hi')
    rw [byteAt, List.getD_eq_getElem?_getD, List.getElem?_eq_getElem hi']
    simpa using hne

/-- It is found at the start exactly if the text starts with it. -/
theorem httpFindChar_eq_zero :
    httpFindChar mem 0 ch mem.length = some 0 ↔ mem.head? = some ch := by
  cases mem with
  | nil => simp [httpFindChar, scan]
  | cons c t =>
    rw [httpFindChar, scan_eq_some]
    simp [byteAt]

end Http
end Dukserver
