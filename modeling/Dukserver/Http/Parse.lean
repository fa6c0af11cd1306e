/-
# Parsing the header block

`libhttpd/http_parse.c`.  `_http_parse_lines` walks through the block and gives
each line to a parser, the first one to `_http_parse_request_line` or
`_http_parse_response_line` and the others to `_http_parse_header`; it stops at
the first empty line.  `mem` is the memory of the buffer from its start, because
the parsers can look beyond their line, in both directions.

Internal entries and headers share the dictionary, and the internal ones are
those whose key starts with a space.  The name of a header starts at the first
letter of its line, and going back over spaces from the colon stops at that
letter at the latest, so no header line touches an internal entry
(`httpParseHeader_internal`, `httpParseLines_internal`).
-/

import Dukserver.Http.Content
import Dukserver.Http.Text

namespace Dukserver
namespace Http

open Lib (Bytes ascii byteAt cstr slice isalpha)

/-- `_http_parse_request_line`. -/
def httpParseRequestLine (mem : Bytes) (buf len : ℕ) (hdr : HttpMap) : Bool × HttpMap :=
  let pend := buf + len
  match httpFindAlpha mem buf len with
  | none => (false, hdr)
  | some s =>
  -- find 'method' end
  match httpFindChar mem s 32 (pend - s) with
  | none => (false, hdr)
  | some p =>
  let hdr := httpMapSet hdr HTTP_METHOD (some (slice mem s p))
  let s := p + 1
  if pend ≤ s then (false, hdr) else
  -- find '/'
  match httpFindChar mem s 47 (pend - s) with
  | none => (false, hdr)
  | some s =>
  -- find 'url' end
  match httpFindChar mem s 32 (pend - s) with
  | none => (false, hdr)
  | some p =>
  let hdr := httpMapSet hdr HTTP_URL (some (slice mem s p))
  let s := p + 1
  if pend ≤ s then (false, hdr) else
  -- find 'HTTP/..'
  match strstr mem s (ascii "HTTP/") with
  | none => (false, hdr)
  | some p =>
  if startsWith mem p (ascii "HTTP/1.1") then
    (true, httpMapSet hdr HTTP_VERSION (some (ascii "HTTP/1.1")))
  else if startsWith mem p (ascii "HTTP/1.0") then
    (true, httpMapSet hdr HTTP_VERSION (some (ascii "HTTP/1.0")))
  else (false, hdr)

/-- `_http_parse_response_line`. -/
def httpParseResponseLine (mem : Bytes) (buf len : ℕ) (hdr : HttpMap) : Bool × HttpMap :=
  let pend := buf + len
  match httpFindAlpha mem buf len with
  | none => (false, hdr)
  | some s =>
  -- find 'HTTP/..'
  match strstr mem s (ascii "HTTP/") with
  | none => (false, hdr)
  | some p =>
  let version :=
    if startsWith mem p (ascii "HTTP/1.1") then some (ascii "1.1")
    else if startsWith mem p (ascii "HTTP/1.0") then some (ascii "1.0")
    else none
  match version with
  | none => (false, hdr)
  | some version =>
  let hdr := httpMapSet hdr HTTP_VERSION (some version)
  let s := p + 8
  -- find 'digit'
  match httpFindDigit mem s (pend - s) with
  | none => (false, hdr)
  | some s =>
  match httpFindChar mem s 32 (pend - s) with
  | none => (false, hdr)
  | some p =>
  let hdr := httpMapSet hdr HTTP_STATUS (some (slice mem s p))
  let s := p + 1
  if pend ≤ s then (false, hdr) else
  (true, httpMapSet hdr HTTP_MESSAGE (some (slice mem s pend)))

/-- `while (p[-1] == ' ') p--;`.  It stops before the start of the memory, which
it never reaches in `httpParseHeader`. -/
def skipSpacesBack (mem : Bytes) : ℕ → ℕ
  | 0 => 0
  | p + 1 => if byteAt mem p == 32 then skipSpacesBack mem p else p + 1

/-- The value in `_http_parse_header`, `NULL` if there are only blanks. -/
def headerValue (mem : Bytes) (pcolon pend : ℕ) : Option Bytes :=
  match httpFindNwhite mem (pcolon + 1) (pend - pcolon - 1) with
  | none => none
  | some s => (httpRfindNwhite mem s (pend - s)).map fun p => slice mem s (p + 1)

/-- `_http_parse_header`. -/
def httpParseHeader (mem : Bytes) (buf len : ℕ) (hdr : HttpMap) : Bool × HttpMap :=
  let pend := buf + len
  match httpFindAlpha mem buf len with
  | none => (false, hdr)
  | some s =>
  match httpFindChar mem s 58 (pend - s) with
  | none => (false, hdr)
  | some pcolon =>
  let k := slice mem s (skipSpacesBack mem pcolon)
  (true, httpMapSet hdr k (headerValue mem pcolon pend))

/-- `_http_prase_t`. -/
inductive HttpParseType
  | request
  | response
  deriving DecidableEq, Repr

/-- The parser of the first line. -/
def httpParseFirstLine : HttpParseType → Bytes → ℕ → ℕ → HttpMap → Bool × HttpMap
  | .request => httpParseRequestLine
  | .response => httpParseResponseLine

/-- The parser of line number `lineno`. -/
def httpParseLine (type : HttpParseType) (lineno : ℕ) :
    Bytes → ℕ → ℕ → HttpMap → Bool × HttpMap :=
  if lineno = 0 then httpParseFirstLine type else httpParseHeader

/-- CRLF at `p`. -/
def atCrlf (mem : Bytes) (p : ℕ) : Bool := byteAt mem p == 13 && byteAt mem (p + 1) == 10

/-- The loop of `_http_parse_lines`, for the `n` positions from `p` on. -/
def parseLinesLoop (type : HttpParseType) (mem : Bytes) :
    ℕ → ℕ → ℕ → ℕ → HttpMap → Bool × HttpMap
  | 0, _, _, _, hdr => (true, hdr)
  | n + 1, p, linebuf, lineno, hdr =>
    if atCrlf mem p then
      if p ≤ linebuf then (true, hdr)
      else match httpParseLine type lineno mem linebuf (p - linebuf) hdr with
        | (true, hdr) => parseLinesLoop type mem n (p + 1) (p + 2) (lineno + 1) hdr
        | (false, hdr) => (false, hdr)
    else parseLinesLoop type mem n (p + 1) linebuf lineno hdr

/-- `_http_parse_lines`. -/
def httpParseLines (type : HttpParseType) (mem : Bytes) (buflen : ℕ) (hdr : HttpMap) :
    Bool × HttpMap :=
  parseLinesLoop type mem (buflen - 1) 0 0 0 hdr

/-- `http_parse_request_headers`. -/
def httpParseRequestHeaders (mem : Bytes) (buflen : ℕ) (hdr : HttpMap) : Bool × HttpMap :=
  httpParseLines .request mem buflen hdr

/-- `http_parse_response_headers`. -/
def httpParseResponseHeaders (mem : Bytes) (buflen : ℕ) (hdr : HttpMap) : Bool × HttpMap :=
  httpParseLines .response mem buflen hdr

/-! ### Internal entries -/

/-- A key under which no header is stored. -/
def Internal (k : Bytes) : Prop := k.head? = some 32

instance (k : Bytes) : Decidable (Internal k) := inferInstanceAs (Decidable (_ = _))

/-- The internal entries are the same. -/
def SameInternal (m m' : HttpMap) : Prop :=
  ∀ k, Internal k → m'.values.lookup k = m.values.lookup k

/-- A dictionary has its own internal entries. -/
theorem SameInternal.refl (m : HttpMap) : SameInternal m m := fun _ _ => rfl

/-- Steps that each leave the internal entries alone do so together. -/
theorem SameInternal.trans {m₁ m₂ m₃ : HttpMap} (h₁ : SameInternal m₁ m₂)
    (h₂ : SameInternal m₂ m₃) : SameInternal m₁ m₃ := fun k hk =>
  (h₂ k hk).trans (h₁ k hk)

/-- The value of an internal entry is what it was. -/
theorem httpMapGet_of_sameInternal {m m' : HttpMap} (h : SameInternal m m') {k : Bytes}
    (hk : Internal (cstr k)) : httpMapGet m' k = httpMapGet m k := by
  rw [httpMapGet, httpMapGet, h _ hk]

/-- An entry whose key starts with another byte is no internal one, so setting
it changes none. -/
theorem sameInternal_set {m : HttpMap} {k : Bytes} {v : Option Bytes}
    (hk : ¬Internal (cstr k)) : SameInternal m (httpMapSet m k v) := fun k' hk' => by
  rw [values_httpMapSet, Lib.Assoc.lookup_set_of_ne]
  rintro rfl
  exact hk hk'

section Header

variable {mem : Bytes} {buf len s p : ℕ} {hdr : HttpMap}

/-- Going back over spaces stops behind the last other byte, and so behind the
start of a name that begins with one. -/
theorem lt_skipSpacesBack (hs : byteAt mem s ≠ 32) (hsp : s < p) : s < skipSpacesBack mem p := by
  induction p with
  | zero => omega
  | succ p ih =>
    rw [skipSpacesBack]
    split_ifs with hp
    · have hne : s ≠ p := by
        rintro rfl
        exact hs (eq_of_beq hp)
      exact ih (by omega)
    · exact hsp

/-- A letter is no NUL, no space and no colon. -/
theorem isalpha_ne {c : UInt8} (h : isalpha c = true) : c ≠ 0 ∧ c ≠ 32 ∧ c ≠ 58 := by
  refine ⟨?_, ?_, ?_⟩ <;> rintro rfl <;> exact absurd h (by decide)

/-- A byte that is no NUL is one of the memory: beyond its end there are only
NULs. -/
theorem lt_length_of_byteAt_ne {i : ℕ} (h : byteAt mem i ≠ 0) : i < mem.length := by
  by_contra hle
  exact h (by simp [byteAt, not_lt.1 hle])

/-- **The name of a header starts with a letter**: it is what stands from the
first letter of the line up to the blanks in front of the colon, and going back
over these stops at the letter. -/
theorem head?_name (hs : isalpha (byteAt mem s) = true) (hsp : s < p) :
    (cstr (slice mem s (skipSpacesBack mem p))).head? = some (byteAt mem s) := by
  obtain ⟨h₀, h₃₂, -⟩ := isalpha_ne hs
  have hhead := head?_slice (lt_skipSpacesBack h₃₂ hsp) (lt_length_of_byteAt_ne h₀)
  cases hslice : slice mem s (skipSpacesBack mem p) with
  | nil => rw [hslice] at hhead; cases hhead
  | cons c t =>
    rw [hslice] at hhead
    obtain rfl : c = byteAt mem s := Option.some.inj hhead
    rw [cstr, List.takeWhile_cons_of_pos (by simpa using h₀), List.head?_cons]

/-- **A header line sets one entry that is no internal one**, or nothing, if it
has no letter or no colon behind it. -/
theorem httpParseHeader_set (mem : Bytes) (buf len : ℕ) (hdr : HttpMap) :
    (httpParseHeader mem buf len hdr).2 = hdr ∨
      ∃ k v, ¬Internal (cstr k) ∧ (httpParseHeader mem buf len hdr).2 = httpMapSet hdr k v := by
  rw [httpParseHeader]
  cases hs : httpFindAlpha mem buf len with
  | none => exact .inl rfl
  | some s =>
    simp only
    cases hp : httpFindChar mem s 58 (buf + len - s) with
    | none => exact .inl rfl
    | some pcolon =>
      have halpha := (scan_eq_some.1 hs).1
      obtain ⟨hcolon, ⟨hle, -⟩, -⟩ := scan_eq_some.1 hp
      have hlt : s < pcolon := by
        refine lt_of_le_of_ne hle fun he => ?_
        rw [← he] at hcolon
        exact (isalpha_ne halpha).2.2 (eq_of_beq hcolon)
      refine .inr ⟨_, _, fun hint => ?_, rfl⟩
      rw [Internal, head?_name halpha hlt] at hint
      exact (isalpha_ne halpha).2.1 (Option.some.inj hint)

/-- It leaves the internal entries alone, whatever its bytes are.  A name starts
with a letter, as everything before the first one is skipped. -/
theorem httpParseHeader_internal (mem : Bytes) (buf len : ℕ) (hdr : HttpMap) :
    SameInternal hdr (httpParseHeader mem buf len hdr).2 := by
  rcases httpParseHeader_set mem buf len hdr with h | ⟨k, v, hk, h⟩
  · rw [h]
    exact .refl _
  · rw [h]
    exact sameInternal_set hk

end Header

/-- The keys the parsers of the first line write. -/
def firstLineKeys : HttpParseType → List Bytes
  | .request => [HTTP_METHOD, HTTP_URL, HTTP_VERSION]
  | .response => [HTTP_VERSION, HTTP_STATUS, HTTP_MESSAGE]

/-- The dictionary after the first line, if there is one and it is not empty. -/
def firstLineDict (type : HttpParseType) (mem : Bytes) (buflen : ℕ) (hdr : HttpMap) : HttpMap :=
  match (List.range' 0 (buflen - 1)).find? fun p => atCrlf mem p with
  | none => hdr
  | some len => if len = 0 then hdr else (httpParseFirstLine type mem 0 len hdr).2

section Lines

variable {type : HttpParseType} {mem : Bytes} {n p linebuf lineno buflen : ℕ} {hdr hdr' : HttpMap}

/-- The end of a line is found behind its bytes. -/
theorem atCrlf_of_drop {l rest : Bytes} (h : mem.drop p = l ++ 13 :: 10 :: rest) :
    atCrlf mem (p + l.length) = true := by
  have h' : mem.drop p = (l ++ [13]) ++ 10 :: rest := by simpa using h
  have hlf := byteAt_of_drop h'
  rw [List.length_append, List.length_singleton] at hlf
  rw [atCrlf, byteAt_of_drop h, show p + l.length + 1 = p + (l.length + 1) by omega, hlf]
  rfl

/-- A buffer starts with CRLF if its first line is empty.  This is the line that
the parser accepts without looking at it. -/
theorem atCrlf_zero : atCrlf mem 0 = true ↔ [13, 10] <+: mem := by
  rcases mem with _ | ⟨a, _ | ⟨b, mem⟩⟩
  · exact ⟨fun h => absurd h (by decide), fun h => absurd h.length_le (by decide)⟩
  · exact ⟨fun h => absurd (Bool.and_eq_true_iff.1 h).2 (by decide : ¬((0 : UInt8) == 10) = true),
      fun h => absurd h.length_le (by simp)⟩
  · rw [List.cons_prefix_cons, List.cons_prefix_cons]
    show (a == 13 && b == 10) = true ↔ _
    rw [Bool.and_eq_true, beq_iff_eq, beq_iff_eq]
    exact ⟨fun h => ⟨h.1.symm, h.2.symm, List.nil_prefix⟩, fun h => ⟨h.1.symm, h.2.1.symm⟩⟩

/-- CRLF is at a place exactly if the memory from there on begins with it. -/
theorem atCrlf_iff : atCrlf mem p = true ↔ [13, 10] <+: mem.drop p := by
  have hbyte : ∀ j, byteAt (mem.drop p) j = byteAt mem (p + j) := fun j => byteAt_add.symm
  rw [← atCrlf_zero, atCrlf, atCrlf, hbyte, hbyte]
  rfl

/-- No CRLF begins in a line without one: also not at its last byte, which would
need the CR of the line's end for its LF. -/
theorem atCrlf_of_not_infix {l rest : Bytes} (h : mem.drop p = l ++ 13 :: 10 :: rest)
    (hl : ¬[13, 10] <:+: l) {i : ℕ} (hi : i < l.length) : atCrlf mem (p + i) = false := by
  rw [← Bool.not_eq_true, atCrlf_iff, ← List.drop_drop, h]
  intro hp
  by_cases hlt : i + 2 ≤ l.length
  · have hin : [13, 10] <+: l.drop i := (Lib.prefix_drop_append hlt).1 hp
    exact hl (hin.isInfix.trans (List.drop_suffix i l).isInfix)
  · -- the last byte of the line is followed by CR
    have hlast : (l.drop i).length = 1 := by
      rw [List.length_drop]
      omega
    obtain ⟨c, hc⟩ := List.length_eq_one_iff.1 hlast
    rw [List.drop_append_of_le_length hi.le, hc] at hp
    have hlf := (List.cons_prefix_cons.1 (List.cons_prefix_cons.1 hp).2).1
    exact absurd hlf (by decide)

/-- A byte at which no CRLF begins is passed over. -/
theorem parseLinesLoop_skip (h : atCrlf mem p = false) :
    parseLinesLoop type mem (n + 1) p linebuf lineno hdr =
      parseLinesLoop type mem n (p + 1) linebuf lineno hdr := by
  rw [parseLinesLoop, h, if_neg Bool.false_ne_true]

/-- The loop passes over positions without CRLF, one by one.  The start of the
line stays where it was, so the line grows. -/
theorem parseLinesLoop_skips {k : ℕ} (h : ∀ i < k, atCrlf mem (p + i) = false) :
    parseLinesLoop type mem (n + k) p linebuf lineno hdr =
      parseLinesLoop type mem n (p + k) linebuf lineno hdr := by
  induction k generalizing p with
  | zero => rfl
  | succ k ih =>
    have h₀ := h 0 (by omega)
    rw [Nat.add_zero] at h₀
    have hrest : ∀ i < k, atCrlf mem (p + 1 + i) = false := fun i hi => by
      rw [show p + 1 + i = p + (i + 1) by omega]
      exact h (i + 1) (by omega)
    rw [← Nat.add_assoc, parseLinesLoop_skip h₀, ih hrest]
    congr 1
    omega

/-- A CRLF where a line would begin ends the loop: the line is empty. -/
theorem parseLinesLoop_empty (h : atCrlf mem p = true) (hle : p ≤ linebuf) :
    parseLinesLoop type mem (n + 1) p linebuf lineno hdr = (true, hdr) := by
  rw [parseLinesLoop, if_pos h, if_pos hle]

/-- A line that its parser accepts is behind the loop then: the next one begins
behind the CRLF. -/
theorem parseLinesLoop_accept (h : atCrlf mem p = true) (hlt : linebuf < p)
    (hline : httpParseLine type lineno mem linebuf (p - linebuf) hdr = (true, hdr')) :
    parseLinesLoop type mem (n + 1) p linebuf lineno hdr =
      parseLinesLoop type mem n (p + 1) (p + 2) (lineno + 1) hdr' := by
  rw [parseLinesLoop, if_pos h, if_neg (not_le.2 hlt), hline]

/-- A line that its parser rejects ends the loop, and with it the whole parse. -/
theorem parseLinesLoop_reject (h : atCrlf mem p = true) (hlt : linebuf < p)
    (hline : httpParseLine type lineno mem linebuf (p - linebuf) hdr = (false, hdr')) :
    parseLinesLoop type mem (n + 1) p linebuf lineno hdr = (false, hdr') := by
  rw [parseLinesLoop, if_pos h, if_neg (not_le.2 hlt), hline]

/-- **The loop keeps what the parser of each line keeps.**  `R` relates a
dictionary to a later one. -/
theorem parseLinesLoop_induction {R : HttpMap → HttpMap → Prop} (hrefl : ∀ m, R m m)
    (htrans : ∀ m₁ m₂ m₃, R m₁ m₂ → R m₂ m₃ → R m₁ m₃)
    (hstep : ∀ buf len lineno' m, lineno ≤ lineno' →
      R m (httpParseLine type lineno' mem buf len m).2) :
    R hdr (parseLinesLoop type mem n p linebuf lineno hdr).2 := by
  induction n generalizing p linebuf lineno hdr with
  | zero => exact hrefl hdr
  | succ n ih =>
    cases hcrlf : atCrlf mem p with
    | false =>
      rw [parseLinesLoop_skip hcrlf]
      exact ih hstep
    | true =>
      by_cases hle : p ≤ linebuf
      · rw [parseLinesLoop_empty hcrlf hle]
        exact hrefl hdr
      · have hline := hstep linebuf (p - linebuf) lineno hdr le_rfl
        rcases hr : httpParseLine type lineno mem linebuf (p - linebuf) hdr with ⟨ok, hdr'⟩
        rw [hr] at hline
        cases ok with
        | false =>
          rw [parseLinesLoop_reject hcrlf (by omega) hr]
          exact hline
        | true =>
          rw [parseLinesLoop_accept hcrlf (by omega) hr]
          exact htrans _ _ _ hline
            (ih fun buf len lineno' m hle' => hstep buf len lineno' m (by omega))

/-- No line after the first touches the internal entries, by induction on the
bytes that are left: every such line goes to `_http_parse_header`. -/
theorem parseLinesLoop_internal (hlineno : 0 < lineno) :
    SameInternal hdr (parseLinesLoop type mem n p linebuf lineno hdr).2 := by
  refine parseLinesLoop_induction SameInternal.refl (fun _ _ _ => SameInternal.trans) ?_
  intro buf len lineno' m hle
  rw [httpParseLine, if_neg (by omega)]
  exact httpParseHeader_internal mem buf len m

/-- **The internal entries are those the parser of the first line has written**:
it is called once, and the lines after it leave them alone. -/
theorem httpParseLines_internal (type : HttpParseType) (mem : Bytes) (buflen : ℕ)
    (hdr : HttpMap) :
    SameInternal (firstLineDict type mem buflen hdr) (httpParseLines type mem buflen hdr).2 := by
  rw [httpParseLines, firstLineDict]
  -- the loop is at the first CRLF from `p` on, and none was before it
  suffices h : ∀ n p, SameInternal
      (match (List.range' p n).find? fun p => atCrlf mem p with
        | none => hdr
        | some len => if len = 0 then hdr else (httpParseFirstLine type mem 0 len hdr).2)
      (parseLinesLoop type mem n p 0 0 hdr).2 from h (buflen - 1) 0
  intro n
  induction n with
  | zero => exact fun _ => .refl _
  | succ n ih =>
    intro p
    rw [List.range'_succ, List.find?_cons]
    cases hcrlf : atCrlf mem p with
    | false =>
      rw [parseLinesLoop_skip hcrlf]
      exact ih (p + 1)
    | true =>
      by_cases hp : p = 0
      · rw [parseLinesLoop_empty hcrlf (by omega)]
        simp only [hp, if_true]
        exact .refl _
      · rcases hr : httpParseFirstLine type mem 0 p hdr with ⟨ok, hdr'⟩
        have hline : httpParseLine type 0 mem 0 (p - 0) hdr = (ok, hdr') := hr
        simp only [if_neg hp, hr]
        cases ok with
        | false =>
          rw [parseLinesLoop_reject hcrlf (by omega) hline]
          exact .refl _
        | true =>
          rw [parseLinesLoop_accept hcrlf (by omega) hline]
          exact parseLinesLoop_internal (by omega)

/-- Every key is an old one or one of the first line's. -/
def KeysWithin (type : HttpParseType) (hdr m : HttpMap) : Prop :=
  ∀ k ∈ m.keys, k ∈ hdr.keys ∨ k ∈ firstLineKeys type

/-- A dictionary has no key but its own. -/
theorem KeysWithin.refl : KeysWithin type hdr hdr := fun _ hk => .inl hk

/-- Setting one of the first line's keys adds no other. -/
theorem KeysWithin.set {m : HttpMap} {k : Bytes} {v : Option Bytes} (h : KeysWithin type hdr m)
    (hk : cstr k ∈ firstLineKeys type) : KeysWithin type hdr (httpMapSet m k v) := by
  intro k' hk'
  rcases mem_keys_httpMapSet.1 hk' with rfl | hk'
  · exact .inr hk
  · exact h k' hk'

/-- The parsers of the first line write their own keys only: three of them each,
written in the code. -/
theorem httpParseFirstLine_keys (type : HttpParseType) (mem : Bytes) (buf len : ℕ)
    (hdr : HttpMap) : KeysWithin type hdr (httpParseFirstLine type mem buf len hdr).2 := by
  have hkey : ∀ k ∈ firstLineKeys type, cstr k ∈ firstLineKeys type := by
    cases type <;> decide
  cases type with
  | request =>
    have hm := hkey HTTP_METHOD (by decide)
    have hu := hkey HTTP_URL (by decide)
    have hv := hkey HTTP_VERSION (by decide)
    simp only [httpParseFirstLine, httpParseRequestLine]
    repeat' split
    all_goals first
      | with_reducible exact .refl
      | with_reducible exact KeysWithin.refl.set hm
      | with_reducible exact (KeysWithin.refl.set hm).set hu
      | with_reducible exact ((KeysWithin.refl.set hm).set hu).set hv
  | response =>
    have hv := hkey HTTP_VERSION (by decide)
    have hs := hkey HTTP_STATUS (by decide)
    have hm := hkey HTTP_MESSAGE (by decide)
    simp only [httpParseFirstLine, httpParseResponseLine]
    repeat' split
    all_goals first
      | with_reducible exact .refl
      | with_reducible exact KeysWithin.refl.set hv
      | with_reducible exact (KeysWithin.refl.set hv).set hs
      | with_reducible exact ((KeysWithin.refl.set hv).set hs).set hm

/-- So what they leave has the keys that were there and those. -/
theorem firstLineDict_keys (type : HttpParseType) (mem : Bytes) (buflen : ℕ) (hdr : HttpMap) :
    KeysWithin type hdr (firstLineDict type mem buflen hdr) := by
  rw [firstLineDict]
  split
  · exact .refl
  · split_ifs
    · exact .refl
    · exact httpParseFirstLine_keys type mem 0 _ hdr

/-- **No header is stored under an internal key**: it was written by the parser
of the first line, or it is not there. -/
theorem httpParseLines_keys (type : HttpParseType) (mem : Bytes) (buflen c : ℕ) {k : Bytes}
    (hk : Internal k) (hmem : k ∈ (httpParseLines type mem buflen (httpMapNew c)).2.keys) :
    k ∈ firstLineKeys type := by
  have hsame := httpParseLines_internal type mem buflen (httpMapNew c) k hk
  have hfirst : k ∈ (firstLineDict type mem buflen (httpMapNew c)).keys := by
    by_contra hnot
    rw [Lib.Assoc.lookup_eq_none.2 hnot, Lib.Assoc.lookup_eq_none] at hsame
    exact hsame hmem
  exact (firstLineDict_keys type mem buflen _ k hfirst).resolve_left List.not_mem_nil

/-! ### What an accepted request leaves -/

/-- The dictionary starts with these entries, and no key comes twice. -/
structure EntriesFirst (entries : List (Bytes × Option Bytes)) (m : HttpMap) : Prop where
  nodup : m.keys.Nodup
  first : entries <+: m.values

/-- It does so after another key was set, as entries keep their place. -/
theorem EntriesFirst.set {entries : List (Bytes × Option Bytes)} {m : HttpMap} {k : Bytes}
    {v : Option Bytes} (h : EntriesFirst entries m) (hk : cstr k ∉ entries.map Prod.fst) :
    EntriesFirst entries (httpMapSet m k v) :=
  ⟨nodup_keys_httpMapSet h.nodup, Lib.Assoc.prefix_set h.first hk⟩

/-- The entries of a request line. -/
def lineEntries (method url version : Bytes) : List (Bytes × Option Bytes) :=
  [(HTTP_METHOD, some method), (HTTP_URL, some url), (HTTP_VERSION, some version)]

/-- The three keys of a request line are internal ones. -/
theorem lineEntries_internal {method url version : Bytes} :
    ∀ k ∈ (lineEntries method url version).map Prod.fst, Internal k :=
  show ∀ k ∈ [HTTP_METHOD, HTTP_URL, HTTP_VERSION], Internal k by decide

/-- An accepted request line is stored: every branch that accepts it sets all
three keys. -/
theorem httpParseRequestLine_accept {buf len c : ℕ} {dict : HttpMap}
    (h : httpParseRequestLine mem buf len (httpMapNew c) = (true, dict)) :
    ∃ method url version, EntriesFirst (lineEntries method url version) dict := by
  have hset : ∀ m u v, EntriesFirst (lineEntries (cstr m) (cstr u) (cstr v))
      (httpMapSet (httpMapSet (httpMapSet (httpMapNew c) HTTP_METHOD (some m)) HTTP_URL (some u))
        HTTP_VERSION (some v)) := fun m u v =>
    ⟨nodup_keys_httpMapSet (nodup_keys_httpMapSet (nodup_keys_httpMapSet List.nodup_nil)),
      List.prefix_rfl⟩
  simp only [httpParseRequestLine] at h
  repeat' split at h
  all_goals obtain ⟨hok, rfl⟩ := Prod.mk.inj h
  all_goals first
    | exact absurd hok Bool.false_ne_true
    | exact ⟨_, _, _, hset _ _ _⟩

/-- A header whose first line is empty is accepted and read no further. -/
theorem httpParseLines_empty (h : atCrlf mem 0 = true) (hlen : 2 ≤ buflen) :
    httpParseLines type mem buflen hdr = (true, hdr) := by
  obtain ⟨n, hn⟩ : ∃ n, buflen - 1 = n + 1 := ⟨buflen - 2, by omega⟩
  rw [httpParseLines, hn, parseLinesLoop_empty h le_rfl]

/-- The lines after the first leave the entries of the first one in their place.
Their names are not internal, so setting them replaces none of these. -/
theorem parseLinesLoop_entriesFirst {entries : List (Bytes × Option Bytes)}
    (hentries : ∀ k ∈ entries.map Prod.fst, Internal k) (hlineno : 0 < lineno)
    (h : EntriesFirst entries hdr) :
    EntriesFirst entries (parseLinesLoop type mem n p linebuf lineno hdr).2 := by
  refine parseLinesLoop_induction
    (R := fun m m' => EntriesFirst entries m → EntriesFirst entries m')
    (fun _ => id) (fun _ _ _ h₁ h₂ => h₂ ∘ h₁) (fun buf len lineno' m hle hm => ?_) h
  rw [httpParseLine, if_neg (by omega)]
  rcases httpParseHeader_set mem buf len m with he | ⟨k, v, hk, he⟩
  · rwa [he]
  · rw [he]
    exact hm.set fun hmem => hk (hentries _ hmem)

/-- **The first CRLF ends the first line**, whose parser can reject the block.
Up to there the loop passes over all bytes. -/
theorem httpParseLines_firstCrlf {ok : Bool} (hbefore : ∀ i < p, atCrlf mem i = false)
    (hat : atCrlf mem p = true) (hpos : 0 < p) (hlen : p + 2 ≤ buflen)
    (hr : httpParseFirstLine type mem 0 p hdr = (ok, hdr')) :
    httpParseLines type mem buflen hdr =
      if ok then parseLinesLoop type mem (buflen - 2 - p) (p + 1) (p + 2) 1 hdr'
      else (false, hdr') := by
  have hskip : ∀ i < p, atCrlf mem (0 + i) = false := fun i hi => by
    rw [Nat.zero_add]
    exact hbefore i hi
  have hline : httpParseLine type 0 mem 0 (p - 0) hdr = (ok, hdr') := hr
  rw [httpParseLines, show buflen - 1 = buflen - 2 - p + 1 + p by omega,
    parseLinesLoop_skips hskip, Nat.zero_add]
  cases ok with
  | false => exact parseLinesLoop_reject hat hpos hline
  | true => exact parseLinesLoop_accept hat hpos hline

/-- **A request with a first line has its three entries, before all others**: an
accepted first line sets them, and the other lines set other keys. -/
theorem httpParseLines_accept {c : ℕ} {dict : HttpMap} (h₀ : atCrlf mem 0 = false)
    (hcrlf : ∃ p < buflen - 1, atCrlf mem p = true)
    (h : httpParseLines .request mem buflen (httpMapNew c) = (true, dict)) :
    ∃ method url version, EntriesFirst (lineEntries method url version) dict := by
  classical
  obtain ⟨hlt, hat⟩ := Nat.find_spec hcrlf
  have hbefore : ∀ i < Nat.find hcrlf, atCrlf mem i = false := fun i hi => by
    have hmin := Nat.find_min hcrlf hi
    simpa [show i < buflen - 1 by omega] using hmin
  generalize Nat.find hcrlf = p at hlt hat hbefore
  have hpos : 0 < p := Nat.pos_of_ne_zero fun he => by
    rw [he, h₀] at hat
    exact Bool.false_ne_true hat
  rcases hr : httpParseFirstLine .request mem 0 p (httpMapNew c) with ⟨ok, hdr'⟩
  rw [httpParseLines_firstCrlf hbefore hat hpos (by omega) hr] at h
  cases ok with
  | false => exact absurd (Prod.mk.inj h).1 Bool.false_ne_true
  | true =>
    obtain ⟨method, url, version, hfirst⟩ := httpParseRequestLine_accept hr
    refine ⟨method, url, version, ?_⟩
    rw [if_pos rfl] at h
    rw [← (Prod.mk.inj h).2]
    exact parseLinesLoop_entriesFirst lineEntries_internal Nat.one_pos hfirst

/-- Whatever is accepted is empty or starts with these entries.  The first is
the case of a header that begins with CRLF. -/
theorem httpParseLines_entries {c : ℕ} {dict : HttpMap}
    (h : httpParseLines .request mem buflen (httpMapNew c) = (true, dict)) :
    dict = httpMapNew c ∨
      ∃ method url version, EntriesFirst (lineEntries method url version) dict := by
  by_cases hcrlf : ∃ p < buflen - 1, atCrlf mem p = true
  · cases h₀ : atCrlf mem 0 with
    | true =>
      obtain ⟨p, hp, -⟩ := hcrlf
      rw [httpParseLines_empty h₀ (by omega)] at h
      exact .inl (Prod.mk.inj h).2.symm
    | false => exact .inr (httpParseLines_accept h₀ hcrlf h)
  · have hnone : ∀ i < buflen - 1, atCrlf mem (0 + i) = false := fun i hi => by
      rw [Nat.zero_add, ← Bool.not_eq_true]
      exact fun hat => hcrlf ⟨i, hi, hat⟩
    rw [httpParseLines, ← Nat.zero_add (buflen - 1), parseLinesLoop_skips hnone] at h
    exact .inl (Prod.mk.inj h).2.symm

end Lines

end Http
end Dukserver
