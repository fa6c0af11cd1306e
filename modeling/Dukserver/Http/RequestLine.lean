/-
# What a request line decides

A line that `_http_parse_request_line` (`libhttpd/http_parse.c`) accepts leaves its
method, its URL and a version, and every accepted request has these entries if the block
has a first line (`requestStored_iff`).  The method and the URL are parts of the line, but
the version is looked for with `strstr`, up to the first NUL of the memory, and can come
from what follows the line (`lineDecides_iff`).
-/

import Dukserver.Http.Wire

namespace Dukserver
namespace Http

open Lib (Bytes ascii byteAt cstr slice isalpha)

/-- A version that is found is one of two.  The text stored is the constant that
was compared and not what stands in the line. -/
theorem parseVersion_cases (mem : Bytes) (s : ℕ) (hdr : HttpMap) :
    parseVersion mem s hdr = (false, hdr) ∨
      ∃ version ∈ versions, parseVersion mem s hdr =
        (true, httpMapSet hdr HTTP_VERSION (some version)) := by
  rw [parseVersion]
  cases strstr mem s (ascii "HTTP/") with
  | none => exact .inl rfl
  | some p =>
    simp only
    split_ifs
    · exact .inr ⟨_, List.mem_cons_self .., rfl⟩
    · exact .inr ⟨_, List.mem_cons_of_mem _ (List.mem_singleton_self _), rfl⟩
    · exact .inl rfl

/-! ### The first line of a block -/

section FirstLine

variable {mem line tail : Bytes} {p buflen : ℕ}

/-- A block with CRLF has a first line: what stands before the first one there
is. -/
theorem exists_firstLine (h : [13, 10] <:+: mem.take buflen) :
    ∃ line tail, mem = line ++ 13 :: 10 :: tail ∧ ¬[13, 10] <:+: line ∧
      line.length + 2 ≤ buflen := by
  have hne : ([13, 10] : Bytes) ≠ [] := List.cons_ne_nil _ _
  have hat : ∀ {l : Bytes}, [13, 10] <:+: l → ∃ j, [13, 10] <+: l.drop j ∧ j + 2 ≤ l.length := by
    rintro l ⟨a, b, rfl⟩
    refine ⟨a.length, ?_, ?_⟩
    · rw [List.append_assoc, List.drop_left]
      exact List.prefix_append _ _
    · rw [List.length_append, List.length_append]
      exact Nat.le_add_right _ _
  cases hi : Lib.indexOf [13, 10] (mem.take buflen) with
  | none =>
    obtain ⟨j, hj, -⟩ := hat h
    exact absurd hj ((Lib.indexOf_eq_none hne).1 hi j)
  | some i =>
    obtain ⟨hmem, hle⟩ := (Lib.indexOf_take hne).1 hi
    have hlen := Lib.indexOf_le hne hmem
    obtain ⟨⟨tail, htail⟩, hbefore⟩ := (Lib.indexOf_eq_some hne).1 hmem
    simp only [List.length_cons, List.length_nil] at hle hlen
    have hline : (mem.take i).length = i := by
      rw [List.length_take]
      omega
    refine ⟨mem.take i, tail, ?_, fun hin => ?_, by omega⟩
    · conv_lhs => rw [← List.take_append_drop i mem, ← htail]
      rfl
    · obtain ⟨j, hj, hjle⟩ := hat hin
      refine hbefore j (by omega) ?_
      rw [← List.take_append_drop i mem]
      exact (Lib.prefix_drop_append hjle).2 hj

/-- **The parser of the first line decides what is internal**, and can reject
the block.  The lines behind touch no internal entry. -/
theorem httpParseLines_firstLine (type : HttpParseType) (tail : Bytes) (hdr : HttpMap)
    (h : ¬[13, 10] <:+: line) (hne : line ≠ []) (hlen : line.length + 2 ≤ buflen) :
    SameInternal (httpParseFirstLine type (line ++ 13 :: 10 :: tail) 0 line.length hdr).2
        (httpParseLines type (line ++ 13 :: 10 :: tail) buflen hdr).2 ∧
      ((httpParseLines type (line ++ 13 :: 10 :: tail) buflen hdr).1 = true →
        (httpParseFirstLine type (line ++ 13 :: 10 :: tail) 0 line.length hdr).1 = true) := by
  have hat : atCrlf (line ++ 13 :: 10 :: tail) line.length = true := by
    have hcrlf := atCrlf_of_drop (p := 0) (show (line ++ 13 :: 10 :: tail).drop 0 = _ from rfl)
    rwa [Nat.zero_add] at hcrlf
  rcases hr : httpParseFirstLine type (line ++ 13 :: 10 :: tail) 0 line.length hdr with ⟨ok, hdr'⟩
  have hbefore : ∀ i < line.length, atCrlf (line ++ 13 :: 10 :: tail) i = false := fun i hi => by
    rw [← Nat.zero_add i]
    exact atCrlf_of_not_infix (List.drop_zero ..) h hi
  rw [httpParseLines_firstCrlf hbefore hat
    (List.length_pos_iff.2 hne) hlen hr]
  cases ok with
  | false => exact ⟨.refl _, id⟩
  | true => exact ⟨parseLinesLoop_internal Nat.one_pos, fun _ => rfl⟩

end FirstLine

/-! ### Accepted requests -/

/-- What the code behind the parser relies on. -/
structure RequestStored (dict : HttpMap) : Prop where
  method : httpMapGet dict HTTP_METHOD ≠ none
  url : ∃ url, httpMapGet dict HTTP_URL = some url ∧ url.head? = some 47 ∧ 32 ∉ url
  version : ∃ version ∈ versions, httpMapGet dict HTTP_VERSION = some version

section Stored

variable {mem line tail : Bytes} {buflen c : ℕ} {dict : HttpMap}

/-- An accepted line leaves its parts: every way to accept has stored the
method, the URL and a version, and nothing behind the line touches these. -/
theorem requestStored_of_line (hline : (httpParseRequestLine (line ++ tail) 0 line.length
      (httpMapNew c)).1 = true) (hdict : SameInternal
      (httpParseRequestLine (line ++ tail) 0 line.length (httpMapNew c)).2 dict) :
    RequestStored dict := by
  have hkeys : Internal (cstr HTTP_METHOD) ∧ Internal (cstr HTTP_URL) ∧
      Internal (cstr HTTP_VERSION) := by decide
  rcases httpParseRequestLine_cases line (httpMapNew c) with ⟨P, rfl⟩ | ⟨hdr', hfalse⟩
  · rw [httpParseRequestLine_parts] at hline hdict
    rcases parseVersion_cases (P.bytes ++ tail) P.start.length (P.store (httpMapNew c)) with
      hversion | ⟨version, hmem, hversion⟩
    · rw [hversion] at hline
      exact absurd hline Bool.false_ne_true
    · rw [hversion] at hdict
      have hcstr : cstr version = version := by
        have hall : ∀ v ∈ versions, cstr v = v := by decide
        exact hall version hmem
      refine ⟨?_, ⟨cstr P.url, ?_, ?_, ?_⟩, version, hmem, ?_⟩
      · rw [httpMapGet_of_sameInternal hdict hkeys.1, httpMapGet_set_of_ne (by decide),
          LineParts.store, httpMapGet_set_of_ne (by decide), httpMapGet_set_self rfl]
        exact Option.some_ne_none _
      · rw [httpMapGet_of_sameInternal hdict hkeys.2.1, httpMapGet_set_of_ne (by decide),
          LineParts.store, httpMapGet_set_self rfl, Option.map_some]
      · obtain ⟨u, hu⟩ := List.head?_eq_some_iff.1 P.slash
        rw [hu, cstr, List.takeWhile_cons_of_pos (by decide), List.head?_cons]
      · exact fun hsp => P.urlEnd ((List.takeWhile_prefix _).subset hsp)
      · rw [httpMapGet_of_sameInternal hdict hkeys.2.2, httpMapGet_set_self rfl, Option.map_some,
          hcstr]
  · rw [hfalse] at hline
    exact absurd hline Bool.false_ne_true

/-- An empty dictionary has nothing. -/
theorem not_requestStored_new : ¬RequestStored (httpMapNew c) := fun h => h.method rfl

/-- **An accepted request has its three entries exactly if the block has a first
line that is not empty.** -/
theorem requestStored_iff :
    (∀ dict, httpParseRequestHeaders mem buflen (httpMapNew c) = (true, dict) →
      RequestStored dict) ↔ [13, 10] <:+: mem.take buflen ∧ ¬[13, 10] <+: mem := by
  constructor
  · intro hall
    constructor
    · by_contra hno
      have hnone : ∀ i < buflen - 1, atCrlf mem (0 + i) = false := fun i hi => by
        rw [Nat.zero_add, ← Bool.not_eq_true, atCrlf_iff]
        intro hp
        have hle := Lib.add_length_le_of_prefix (List.cons_ne_nil _ _) hp
        simp only [List.length_cons, List.length_nil] at hle
        rw [← List.take_append_drop buflen mem, Lib.prefix_drop_append (by
          rw [List.length_take]
          simp only [List.length_cons, List.length_nil]
          omega)] at hp
        exact hno (hp.isInfix.trans (List.drop_suffix _ _).isInfix)
      refine not_requestStored_new (hall (httpMapNew c) ?_)
      rw [httpParseRequestHeaders, httpParseLines, ← Nat.zero_add (buflen - 1),
        parseLinesLoop_skips hnone]
      rfl
    · intro hp
      by_cases hlen : 2 ≤ buflen
      · exact not_requestStored_new (hall _ (httpParseLines_empty (atCrlf_zero.2 hp) hlen))
      · refine not_requestStored_new (hall (httpMapNew c) ?_)
        rw [httpParseRequestHeaders, httpParseLines, Nat.sub_eq_zero_of_le (by omega)]
        rfl
  · rintro ⟨hcrlf, hfirst⟩ dict h
    obtain ⟨line, tail, rfl, hline, hlen⟩ := exists_firstLine hcrlf
    have hne : line ≠ [] := by
      rintro rfl
      exact hfirst ⟨tail, rfl⟩
    obtain ⟨hsame, haccept⟩ :=
      httpParseLines_firstLine .request tail (httpMapNew c) hline hne hlen
    rw [httpParseRequestHeaders] at h
    rw [h] at hsame haccept
    exact requestStored_of_line (haccept rfl) hsame

/-- A header of two empty lines is accepted, with an empty dictionary. -/
theorem requestStored_empty : ¬∀ dict,
    httpParseRequestHeaders (ascii "\r\n\r\n") 4 (httpMapNew HTTP_DEFAULT_HEADERS_COUNT) =
      (true, dict) → RequestStored dict := fun h =>
  not_requestStored_new (h _ (httpParseLines_empty (by decide) (by decide)))

end Stored

/-! ### What follows the line -/

/-- What follows a request line and its CRLF makes no difference. -/
def LineDecides (line : Bytes) : Prop :=
  ∀ tail₁ tail₂ buflen₁ buflen₂ hdr, line.length + 2 ≤ buflen₁ → line.length + 2 ≤ buflen₂ →
    httpParseRequestLine (line ++ 13 :: 10 :: tail₁) 0 line.length hdr =
      httpParseRequestLine (line ++ 13 :: 10 :: tail₂) 0 line.length hdr ∧
    ∀ k ∈ firstLineKeys .request,
      httpMapGet (httpParseRequestHeaders (line ++ 13 :: 10 :: tail₁) buflen₁ hdr).2 k =
        httpMapGet (httpParseRequestHeaders (line ++ 13 :: 10 :: tail₂) buflen₂ hdr).2 k

section Decides

variable {pat mem line text tail tail₁ tail₂ : Bytes} {s i : ℕ} {hdr : HttpMap}

/-- A pattern without CR does not begin in a line and end behind it.  The byte
at which it would leave the line is CR, which it does not have. -/
theorem prefix_append_cr (h : 13 ∉ pat) : pat <+: text ++ 13 :: tail ↔ pat <+: text := by
  refine ⟨fun hp => ?_, fun hp => hp.trans (List.prefix_append _ _)⟩
  by_cases hle : pat.length ≤ text.length
  · exact (List.isPrefix_append_of_length hle).1 hp
  · have hcr : text ++ [13] <+: pat := by
      refine List.prefix_of_prefix_length_le ⟨tail, List.append_assoc ..⟩ hp ?_
      rw [List.length_append, List.length_singleton]
      omega
    exact absurd (hcr.subset (List.mem_append_right _ (List.mem_singleton_self _))) h

/-- Neither does it at any later place of the line. -/
theorem prefix_drop_append_cr (h : 13 ∉ pat) (hi : i ≤ text.length) :
    pat <+: (text ++ 13 :: tail).drop i ↔ pat <+: text.drop i := by
  rw [List.drop_append_of_le_length hi, prefix_append_cr h]

/-- What is found in a text, or kept from being found by a NUL there, is found
there whatever follows. -/
theorem indexOf_cstr_append (hne : pat ≠ []) (h : pat <:+: text ∨ 0 ∈ text) :
    Lib.indexOf pat (cstr (text ++ tail)) = Lib.indexOf pat (cstr text) := by
  by_cases hzero : 0 ∈ text
  · rw [Lib.cstr_append_of_mem tail hzero]
  · rw [Lib.cstr_append_of_not_mem tail hzero, Lib.cstr_of_not_mem hzero]
    obtain ⟨a, b, hab⟩ := h.resolve_right hzero
    cases hi : Lib.indexOf pat text with
    | none =>
      refine absurd ?_ ((Lib.indexOf_eq_none hne).1 hi a.length)
      rw [← hab, List.append_assoc, List.drop_left]
      exact List.prefix_append _ _
    | some i => exact Lib.indexOf_append hne hi

/-- The version is decided by the line if `strstr` ends in it, at the version or
at a NUL.  What follows the line is then not looked at. -/
theorem parseVersion_congr (start : Bytes) (h : ascii "HTTP/" <:+: text ∨ 0 ∈ text) :
    parseVersion (start ++ text ++ 13 :: tail₁) start.length hdr =
      parseVersion (start ++ text ++ 13 :: tail₂) start.length hdr := by
  have hdrop : ∀ tail : Bytes, (start ++ text ++ 13 :: tail).drop start.length =
      text ++ 13 :: tail := fun tail => by rw [List.append_assoc, List.drop_left]
  have hstrstr : ∀ tail, strstr (start ++ text ++ 13 :: tail) start.length (ascii "HTTP/") =
      (Lib.indexOf (ascii "HTTP/") (cstr text)).map (start.length + ·) := fun tail => by
    rw [strstr, hdrop, indexOf_cstr_append (by decide) h]
  rw [parseVersion, parseVersion, hstrstr, hstrstr]
  cases hi : Lib.indexOf (ascii "HTTP/") (cstr text) with
  | none => rfl
  | some i =>
    have hle : i ≤ text.length := by
      have hpat := Lib.indexOf_le (by decide) hi
      have htext := (List.takeWhile_prefix (p := (· != 0)) (l := text)).length_le
      rw [← cstr] at htext
      omega
    have hstarts : ∀ pat, 13 ∉ pat → ∀ tail,
        startsWith (start ++ text ++ 13 :: tail) (start.length + i) pat =
          pat.isPrefixOf (text.drop i) := fun pat hpat tail => by
      rw [startsWith, ← List.drop_drop, hdrop, Bool.eq_iff_iff, List.isPrefixOf_iff_prefix,
        List.isPrefixOf_iff_prefix, prefix_drop_append_cr hpat hle]
    simp only [Option.map_some, hstarts (ascii "HTTP/1.1") (by decide),
      hstarts (ascii "HTTP/1.0") (by decide)]

/-- Behind a text without version and NUL it is taken from the next line, since
`strstr` goes on there. -/
theorem parseVersion_borrow (start : Bytes) (hdr : HttpMap)
    (hversion : ¬ascii "HTTP/" <:+: text) (hzero : 0 ∉ text) :
    (parseVersion (start ++ text ++ 13 :: 10 :: ascii "HTTP/1.1") start.length hdr).1 = true ∧
      (parseVersion (start ++ text ++ 13 :: 10 :: []) start.length hdr).1 = false := by
  have hne : ascii "HTTP/" ≠ [] := by decide
  have hdrop : ∀ tail : Bytes, (start ++ text ++ tail).drop start.length = text ++ tail :=
    fun tail => by rw [List.append_assoc, List.drop_left]
  have hline : ∀ tail j, j ≤ text.length → ¬ascii "HTTP/" <+: (text ++ 13 :: tail).drop j :=
    fun tail j hj hp => by
      rw [prefix_drop_append_cr (by decide) hj] at hp
      exact hversion (hp.isInfix.trans (List.drop_suffix _ _).isInfix)
  constructor
  · have hbehind : (text ++ 13 :: 10 :: ascii "HTTP/1.1").drop (text.length + 2) =
        ascii "HTTP/1.1" := by
      rw [← List.drop_drop, List.drop_left]
      rfl
    have hindex : Lib.indexOf (ascii "HTTP/") (text ++ 13 :: 10 :: ascii "HTTP/1.1") =
        some (text.length + 2) := by
      rw [Lib.indexOf_eq_some hne, hbehind]
      refine ⟨by decide, fun j hj => ?_⟩
      by_cases hle : j ≤ text.length
      · exact hline _ j hle
      · have hlf : (text ++ 13 :: 10 :: ascii "HTTP/1.1").drop j = 10 :: ascii "HTTP/1.1" := by
          rw [show j = text.length + 1 by omega, ← List.drop_drop, List.drop_left]
          rfl
        rw [hlf]
        decide
    have hcstr : cstr (13 :: 10 :: ascii "HTTP/1.1") = 13 :: 10 :: ascii "HTTP/1.1" := by decide
    rw [parseVersion, strstr, hdrop, Lib.cstr_append_of_not_mem _ hzero, hcstr, hindex,
      Option.map_some]
    simp only
    rw [startsWith, ← List.drop_drop, hdrop, hbehind, if_pos (by decide)]
  · have hindex : Lib.indexOf (ascii "HTTP/") (text ++ [13, 10]) = none := by
      rw [Lib.indexOf_eq_none hne]
      intro j
      by_cases hle : j ≤ text.length
      · exact hline _ j hle
      · intro hp
        have hlen := Lib.add_length_le_of_prefix hne hp
        rw [List.length_append] at hlen
        simp only [List.length_cons, List.length_nil, show (ascii "HTTP/").length = 5 from rfl]
          at hlen
        omega
    have hcstr : cstr [13, 10] = [13, 10] := by decide
    rw [parseVersion, strstr, hdrop, Lib.cstr_append_of_not_mem _ hzero, hcstr, hindex]
    rfl

/-- **The request line alone decides exactly if the search for the version,
where it is reached, ends in the line**: at a version or at a NUL. -/
theorem lineDecides_iff (h : ¬[13, 10] <:+: line) :
    LineDecides line ↔ ∀ P : LineParts, P.bytes = line →
      ascii "HTTP/" <:+: P.rest ∨ 0 ∈ P.rest := by
  constructor
  · rintro hdecides P rfl
    by_contra hno
    rw [not_or] at hno
    obtain ⟨htrue, hfalse⟩ := parseVersion_borrow P.start (P.store (httpMapNew 0)) hno.1 hno.2
    have hparse := (hdecides (ascii "HTTP/1.1") [] _ _ (httpMapNew 0) le_rfl le_rfl).1
    rw [httpParseRequestLine_parts, httpParseRequestLine_parts, LineParts.bytes] at hparse
    rw [hparse, hfalse] at htrue
    exact Bool.false_ne_true htrue
  · intro hparts tail₁ tail₂ buflen₁ buflen₂ hdr hlen₁ hlen₂
    have hparse : ∀ tail tail' : Bytes,
        httpParseRequestLine (line ++ 13 :: 10 :: tail) 0 line.length hdr =
          httpParseRequestLine (line ++ 13 :: 10 :: tail') 0 line.length hdr := fun tail tail' => by
      rcases httpParseRequestLine_cases line hdr with ⟨P, rfl⟩ | ⟨hdr', hfalse⟩
      · rw [httpParseRequestLine_parts, httpParseRequestLine_parts]
        exact parseVersion_congr P.start (hparts P rfl)
      · rw [hfalse, hfalse]
    refine ⟨hparse tail₁ tail₂, fun k hk => ?_⟩
    by_cases hne : line = []
    · subst hne
      rw [httpParseRequestHeaders, httpParseRequestHeaders, httpParseLines_empty rfl hlen₁,
        httpParseLines_empty rfl hlen₂]
    · have hinternal : Internal (cstr k) := by
        have hall : ∀ k ∈ firstLineKeys .request, Internal (cstr k) := by decide
        exact hall k hk
      have hsame₁ := (httpParseLines_firstLine .request tail₁ hdr h hne hlen₁).1
      have hsame₂ := (httpParseLines_firstLine .request tail₂ hdr h hne hlen₂).1
      rw [httpParseFirstLine] at hsame₁ hsame₂
      rw [httpParseRequestHeaders, httpParseRequestHeaders,
        httpMapGet_of_sameInternal hsame₁ hinternal, httpMapGet_of_sameInternal hsame₂ hinternal,
        hparse tail₁ tail₂]

/-- Satisfiability, for a line with a version. -/
theorem lineDecides_get : LineDecides (ascii "GET / HTTP/1.1") := by
  refine (lineDecides_iff (by decide)).2 fun P hP => .inl ?_
  -- the version starts behind a space, and there is another one before
  have hall : ∀ n < 14, ((ascii "GET / HTTP/1.1").take n).getLast? = some 32 →
      2 ≤ ((ascii "GET / HTTP/1.1").take n).count 32 →
        ascii "HTTP/" <:+: (ascii "GET / HTTP/1.1").drop n := by decide +kernel
  have hlen : P.start.length < 14 := by
    have hsum := congrArg List.length hP
    have hpos := List.length_pos_iff.2 P.restLength
    rw [LineParts.bytes, List.length_append, show (ascii "GET / HTTP/1.1").length = 14 from rfl]
      at hsum
    omega
  have hstart : (ascii "GET / HTTP/1.1").take P.start.length = P.start := by
    rw [← hP, LineParts.bytes, List.take_left]
  have hrest : (ascii "GET / HTTP/1.1").drop P.start.length = P.rest := by
    rw [← hP, LineParts.bytes, List.drop_left]
  rw [← hrest]
  refine hall _ hlen ?_ ?_
  · have hends : P.start = P.before ++ P.method ++ 32 :: P.between ++ P.url ++ [32] := by
      rw [LineParts.start]
      simp
    rw [hstart, hends, List.getLast?_concat]
  · rw [hstart, LineParts.start]
    simp only [List.count_append, List.count_cons, beq_self_eq_true, if_true]
    omega

/-- A line without a version is rejected if nothing follows, and accepted if a
version does. -/
theorem lineDecides_borrowed : ¬LineDecides (ascii "GET / x") := fun h => by
  have hparse := congrArg Prod.fst (h (ascii "X: HTTP/1.1") [] _ _
    (httpMapNew HTTP_DEFAULT_HEADERS_COUNT) le_rfl le_rfl).1
  exact absurd hparse (by decide +kernel)

end Decides

end Http
end Dukserver
