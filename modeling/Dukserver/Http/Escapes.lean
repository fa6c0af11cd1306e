/-
# Escapes

`libhttpd/http_urldecode.c`, `http_unquote` and `_parse_hex` (lines 39-100), and
`libhttpd/http_urlencode.c`, `_to_hex` and `http_quote` (lines 69-118), on every byte
string.

`http_unquote` rejects an escape that the end cuts off and no other: `_parse_hex`
answers two characters that are no digits with `0`, which is a value
(`unquotesWell_iff`).  `http_quote` shifts a plain `char`, so the first digit of a
byte from `0x80` on is taken from a negative number and is not the one that
`_to_hex` was written for (`quoteReadsBack_iff`).
-/

import Dukserver.Http.UrlEncode

namespace Dukserver
namespace Http

open Lib (Bytes ascii isalpha isdigit)

/-! ### What is accepted -/

/-- Every `%` that the scan reaches has two hexadecimal digits behind it. -/
def wellEscaped : Bytes → Bool
  | [] => true
  | p :: t =>
    if p = 37 then
      match t with
      | a :: b :: t => (hexDigit a).isSome && (hexDigit b).isSome && wellEscaped t
      | _ => false
    else wellEscaped t

/-- The scan reaches a `%` with less than two bytes behind it. -/
def truncated : Bytes → Bool
  | [] => false
  | p :: t =>
    if p = 37 then
      match t with
      | _ :: _ :: t => truncated t
      | _ => true
    else truncated t

/-- The text with a space for each `+` and a byte for each escape. -/
def unescaped : Bytes → Bytes
  | [] => []
  | p :: t =>
    if p = 43 then 32 :: unescaped t
    else if p = 37 then
      match t with
      | a :: b :: t =>
        (16 * (hexDigit a).getD 0 + (hexDigit b).getD 0).toUInt8 :: unescaped t
      | _ => []
    else p :: unescaped t

/-- `http_unquote` gives the text if all escapes are well formed, and `-1`
otherwise. -/
def UnquotesWell (s : Bytes) : Prop :=
  httpUnquote s = if wellEscaped s then some (unescaped s) else none

section Unquote

variable {s t : Bytes} {p : UInt8}

/-- A byte that is no `%` needs nothing behind it. -/
theorem wellEscaped_of_ne (hp : p ≠ 37) : wellEscaped (p :: t) = wellEscaped t := by
  rw [wellEscaped.eq_def]
  simp only [if_neg hp]

/-- And it is not what an escape is cut off at. -/
theorem truncated_of_ne (hp : p ≠ 37) : truncated (p :: t) = truncated t := by
  rw [truncated.eq_def]
  simp only [if_neg hp]

/-- `http_unquote` fails at an escape that is cut off, and nowhere else.  Two
characters behind a percent sign are taken for an escape whatever they are. -/
theorem httpUnquote_eq_none : httpUnquote s = none ↔ truncated s = true := by
  fun_induction httpUnquote s with
  | case1 => simp [truncated]
  | case2 t ih => rw [Option.map_eq_none_iff, ih, truncated_of_ne (by decide)]
  | case3 a b t _ ih =>
    rw [Option.map_eq_none_iff, ih, truncated.eq_def (37 :: _)]
    simp only [if_pos]
  | case4 t ht =>
    rw [truncated.eq_def]
    simp
  | case5 p t _ hp ih => rw [Option.map_eq_none_iff, ih, truncated_of_ne hp]

/-- **Well-formed escapes are decoded**, byte by byte. -/
theorem httpUnquote_of_wellEscaped (h : wellEscaped s = true) :
    httpUnquote s = some (unescaped s) := by
  fun_induction httpUnquote s with
  | case1 => rfl
  | case2 t ih =>
    rw [wellEscaped_of_ne (by decide)] at h
    rw [ih h, unescaped.eq_def (43 :: t)]
    rfl
  | case3 a b t _ ih =>
    rw [wellEscaped.eq_def] at h
    simp only [if_pos, Bool.and_eq_true] at h
    obtain ⟨x, hx⟩ := Option.isSome_iff_exists.1 h.1.1
    obtain ⟨y, hy⟩ := Option.isSome_iff_exists.1 h.1.2
    have hhex : parseHex [a, b] = 16 * (hexDigit a).getD 0 + (hexDigit b).getD 0 := by
      simp [parseHex, hx, hy, Nat.mul_comm]
    rw [ih h.2, hhex, unescaped.eq_def (37 :: _)]
    rfl
  | case4 t ht =>
    rw [wellEscaped.eq_def] at h
    simp at h
  | case5 p t hplus hp ih =>
    rw [wellEscaped_of_ne hp] at h
    rw [ih h, unescaped.eq_def (p :: t)]
    simp only [if_neg hplus, if_neg hp, Option.map_some]

/-- **A string is decoded as it should be exactly if its escapes are well formed
or one is cut off**: a pair of other characters is taken for `%00`. -/
theorem unquotesWell_iff : UnquotesWell s ↔ wellEscaped s = true ∨ truncated s = true := by
  rw [UnquotesWell]
  by_cases hwell : wellEscaped s = true
  · rw [if_pos hwell]
    exact iff_of_true (httpUnquote_of_wellEscaped hwell) (.inl hwell)
  · rw [if_neg hwell, httpUnquote_eq_none]
    exact (or_iff_right hwell).symm

/-- `a%zzb` is decoded to the string `a`, with a NUL and a `b` behind it. -/
theorem unquotesWell_zz : httpUnquote (ascii "a%zzb") = some [97, 0, 98] ∧
    ¬UnquotesWell (ascii "a%zzb") :=
  ⟨by decide, fun h => absurd (show httpUnquote _ = _ from h) (by decide)⟩

end Unquote

/-! ### What is quoted -/

/-- Letters, digits, `_`, `.`, `-`, and escapes of two hexadecimal digits. -/
def isQuoted : Bytes → Bool
  | [] => true
  | p :: t =>
    if p = 37 then
      match t with
      | a :: b :: t => (hexDigit a).isSome && (hexDigit b).isSome && isQuoted t
      | _ => false
    else (isalpha p || isdigit p || p == 95 || p == 46 || p == 45) && isQuoted t

/-- What `http_quote` writes is made of these, and `http_unquote` reads it back. -/
def QuoteReadsBack (s : Bytes) : Prop :=
  httpUnquote (httpQuote s) = some s ∧ isQuoted (httpQuote s) = true

/-- What `http_unquote` makes of a quoted byte. -/
def readBack (c : UInt8) : UInt8 :=
  if c ∈ alwaysSafeBuf then c
  else (parseHex [toHex (signedChar c / 16), toHex (c.toNat % 16)]).toUInt8

section Quote

variable {s rest : Bytes}

/-- A quoted byte is decoded, to whatever it may be.  Its escape is never cut
off: `http_quote` writes both digits. -/
theorem httpUnquote_quoteChar (c : UInt8) (rest : Bytes) :
    httpUnquote (quoteChar c ++ rest) = (httpUnquote rest).map (readBack c :: ·) := by
  rw [quoteChar, readBack]
  split_ifs with hsafe
  · have hall : alwaysSafeBuf.all (fun c => c != 43 && c != 37) = true := by decide
    have hc := List.all_eq_true.1 hall c hsafe
    rw [Bool.and_eq_true, bne_iff_ne, bne_iff_ne] at hc
    rw [List.singleton_append, httpUnquote.eq_def]
    simp only [if_neg hc.1, if_neg hc.2]
  · rfl

/-- **What is quoted is decoded**, byte by byte. -/
theorem httpUnquote_httpQuote_map (s : Bytes) :
    httpUnquote (httpQuote s) = some (s.map readBack) := by
  induction s with
  | nil => rfl
  | cons c s ih =>
    rw [httpQuote, List.flatMap_cons, ← httpQuote, httpUnquote_quoteChar, ih]
    rfl

/-- **The bytes below `0x80` come back, and no others**: above, the first digit
is taken from a negative number. -/
theorem readBack_eq_iff (c : UInt8) : readBack c = c ↔ c < 128 := by
  rw [readBack]
  split_ifs with hsafe
  · have hall : alwaysSafeBuf.all (· < 128) = true := by decide
    exact iff_of_true rfl (of_decide_eq_true (List.all_eq_true.1 hall c hsafe))
  · have hall : (List.range 256).all (fun n => decide
        ((parseHex [toHex (signedChar n.toUInt8 / 16), toHex (n.toUInt8.toNat % 16)]).toUInt8 =
          n.toUInt8) == decide (n.toUInt8 < 128)) = true := by decide +kernel
    have hc := List.all_eq_true.1 hall c.toNat (List.mem_range.2 c.toNat_lt)
    have hround : c.toNat.toUInt8 = c := UInt8.ofNat_toNat
    rwa [hround, beq_iff_eq, decide_eq_decide] at hc

/-- Their quoted form is as it should be. -/
theorem isQuoted_quoteChar {c : UInt8} (hc : c < 128) (rest : Bytes) :
    isQuoted (quoteChar c ++ rest) = isQuoted rest := by
  rw [quoteChar]
  split_ifs with hsafe
  · have hall : alwaysSafeBuf.all (fun c => c != 37 &&
        (isalpha c || isdigit c || c == 95 || c == 46 || c == 45)) = true := by decide
    have hsafe' := List.all_eq_true.1 hall c hsafe
    rw [Bool.and_eq_true, bne_iff_ne] at hsafe'
    rw [List.singleton_append, isQuoted.eq_def]
    simp only [if_neg hsafe'.1, hsafe'.2, Bool.true_and]
  · rw [isQuoted.eq_def]
    simp only [List.cons_append, List.nil_append, if_pos, hexDigit_high hc, hexDigit_low,
      Option.isSome_some, Bool.true_and]

/-- So is that of a text of such bytes. -/
theorem isQuoted_httpQuote (hs : ∀ c ∈ s, c < 128) : isQuoted (httpQuote s) = true := by
  induction s with
  | nil => rfl
  | cons c s ih =>
    obtain ⟨hc, hs⟩ := List.forall_mem_cons.1 hs
    rw [httpQuote, List.flatMap_cons, ← httpQuote, isQuoted_quoteChar hc, ih hs]

/-- **A string is quoted as it should be and read back exactly if all its bytes
are below `0x80`.** -/
theorem quoteReadsBack_iff : QuoteReadsBack s ↔ ∀ c ∈ s, c < 128 := by
  have hback : httpUnquote (httpQuote s) = some s ↔ ∀ c ∈ s, c < 128 := by
    have hmap : s.map readBack = s.map id ↔ ∀ c ∈ s, readBack c = c := List.map_inj_left
    rw [httpUnquote_httpQuote_map, Option.some_inj]
    rw [List.map_id] at hmap
    simpa only [readBack_eq_iff] using hmap
  exact ⟨fun h => hback.1 h.1, fun h => ⟨hback.2 h, isQuoted_httpQuote h⟩⟩

/-- The two bytes of an `é` come back as a `3` and a control character, and the
first digit of `0x80` is a slash. -/
theorem quoteReadsBack_accent : httpQuote [195, 169] = ascii "%33%19" ∧
    httpQuote [128] = ascii "%/0" ∧ ¬QuoteReadsBack [195, 169] ∧ ¬QuoteReadsBack [128] :=
  ⟨by decide, by decide, fun h => absurd h.1 (by decide), fun h => absurd h.1 (by decide)⟩

end Quote

end Http
end Dukserver
