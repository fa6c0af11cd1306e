/-
# The parts of a request line

`_http_parse_request_line` (`libhttpd/http_parse.c`) looks for the parts of its line one
after the other, and all its searches end with the line but the last, for the version.
A line in which it gets that far is a `LineParts` (`httpParseRequestLine_parts`), and
every other one is rejected by what is in it (`httpParseRequestLine_cases`).
-/

import Dukserver.Http.Parse

namespace Dukserver
namespace Http

open Lib (Bytes ascii byteAt cstr slice isalpha)

/-- A request line as its searches divide it. -/
structure LineParts where
  before : Bytes
  method : Bytes
  between : Bytes
  url : Bytes
  /-- Where the version should be. -/
  rest : Bytes
  noLetter : ∀ c ∈ before, isalpha c = false
  letter : method.head?.any isalpha = true
  methodEnd : 32 ∉ method
  noSlash : 47 ∉ between
  slash : url.head? = some 47
  urlEnd : 32 ∉ url
  restLength : rest ≠ []

namespace LineParts

/-- What is before the version. -/
def start (P : LineParts) : Bytes := P.before ++ (P.method ++ 32 :: (P.between ++ (P.url ++ [32])))

/-- The line. -/
def bytes (P : LineParts) : Bytes := P.start ++ P.rest

/-- The dictionary with method and URL. -/
def store (P : LineParts) (hdr : HttpMap) : HttpMap :=
  httpMapSet (httpMapSet hdr HTTP_METHOD (some P.method)) HTTP_URL (some P.url)

end LineParts

/-- The end of `_http_parse_request_line`, where the version is looked for. -/
def parseVersion (mem : Bytes) (s : ℕ) (hdr : HttpMap) : Bool × HttpMap :=
  match strstr mem s (ascii "HTTP/") with
  | none => (false, hdr)
  | some p =>
    if startsWith mem p (ascii "HTTP/1.1") then
      (true, httpMapSet hdr HTTP_VERSION (some (ascii "HTTP/1.1")))
    else if startsWith mem p (ascii "HTTP/1.0") then
      (true, httpMapSet hdr HTTP_VERSION (some (ascii "HTTP/1.0")))
    else (false, hdr)

/-- **A line with all its parts is read up to the version**: its method ends at
a blank, its URL at the next one, and the version is looked for from there on. -/
theorem httpParseRequestLine_parts (P : LineParts) (tail : Bytes) (hdr : HttpMap) :
    httpParseRequestLine (P.bytes ++ tail) 0 P.bytes.length hdr =
      parseVersion (P.bytes ++ tail) P.start.length (P.store hdr) := by
  obtain ⟨before, method, between, url, rest, hbefore, hletter, hmethod, hbetween, hslash, hurl,
    hrest⟩ := P
  obtain ⟨m, ms, hm⟩ : ∃ m ms, method = m :: ms := by
    cases method with
    | nil => exact absurd hletter Bool.false_ne_true
    | cons m ms => exact ⟨m, ms, rfl⟩
  obtain ⟨u, hu⟩ : ∃ u, url = 47 :: u := List.head?_eq_some_iff.1 hslash
  simp only [LineParts.bytes, LineParts.start, LineParts.store]
  set start := before ++ (method ++ 32 :: (between ++ (url ++ [32]))) with hstart
  have hpos := List.length_pos_iff.2 hrest
  have hend : (start ++ rest).length = start.length + rest.length := List.length_append
  have hlen : start.length =
      0 + before.length + method.length + 1 + between.length + url.length + 1 := by
    rw [hstart]
    simp only [List.length_append, List.length_cons, List.length_nil]
    omega
  have hmpos : 0 < method.length := by rw [hm]; exact Nat.succ_pos _
  have hupos : 0 < url.length := by rw [hu]; exact Nat.succ_pos _
  have h₀ : (start ++ rest ++ tail).drop 0 =
      before ++ (method ++ 32 :: (between ++ (url ++ 32 :: (rest ++ tail)))) := by
    rw [hstart]
    simp
  have h₁ := drop_of_drop h₀
  have h₂ := drop_cons_of_drop h₁
  have h₃ := drop_of_drop h₂
  have hfind : httpFindAlpha (start ++ rest ++ tail) 0 (start ++ rest).length =
      some (0 + before.length) := by
    rw [hm] at h₀ hletter
    exact scan_of_drop h₀ hbefore hletter (by omega)
  have hmethodEnd : httpFindChar (start ++ rest ++ tail) (0 + before.length) 32
      (0 + (start ++ rest).length - (0 + before.length)) =
      some (0 + before.length + method.length) :=
    scan_of_drop h₁ (beq_of_not_mem hmethod) rfl (by omega)
  have hfindSlash : httpFindChar (start ++ rest ++ tail) (0 + before.length + method.length + 1) 47
      (0 + (start ++ rest).length - (0 + before.length + method.length + 1)) =
      some (0 + before.length + method.length + 1 + between.length) := by
    rw [hu] at h₂
    exact scan_of_drop h₂ (beq_of_not_mem hbetween) rfl (by omega)
  have hurlEnd : httpFindChar (start ++ rest ++ tail)
      (0 + before.length + method.length + 1 + between.length) 32
      (0 + (start ++ rest).length - (0 + before.length + method.length + 1 + between.length)) =
      some (0 + before.length + method.length + 1 + between.length + url.length) :=
    scan_of_drop h₃ (beq_of_not_mem hurl) rfl (by omega)
  rw [httpParseRequestLine, hfind, hlen]
  simp only [hmethodEnd, hfindSlash, hurlEnd, slice_of_drop h₁, slice_of_drop h₃]
  rw [if_neg (by omega)]
  exact if_neg (by omega)

/-- **Every other line is rejected**, whatever follows it: the search for what
is missing ends with the line. -/
theorem httpParseRequestLine_cases (line : Bytes) (hdr : HttpMap) :
    (∃ P : LineParts, P.bytes = line) ∨
      ∃ hdr', ∀ tail, httpParseRequestLine (line ++ tail) 0 line.length hdr = (false, hdr') := by
  have hchar : ∀ s ch tail, httpFindChar (line ++ tail) s ch (line.length - s) =
      httpFindChar line s ch (line.length - s) := fun _ _ _ => scan_append
  have hfind : ∀ tail, httpFindAlpha (line ++ tail) 0 line.length =
      httpFindAlpha line 0 line.length := fun _ => scan_append (s := 0)
  simp only [httpParseRequestLine, hchar, hfind, Nat.zero_add]
  cases hs : httpFindAlpha line 0 line.length with
  | none => exact .inr ⟨_, fun _ => rfl⟩
  | some s =>
  obtain ⟨before, m, r₁, h₀, rfl, hbefore, hletter⟩ := scan_split (s := 0) hs
  simp only
  cases hp : httpFindChar line (0 + before.length) 32 (line.length - (0 + before.length)) with
  | none => exact .inr ⟨_, fun _ => rfl⟩
  | some p =>
  obtain ⟨method, sp, r₂, h₁, rfl, hmethod, hsp⟩ := scan_split hp
  simp only [slice_append h₁]
  by_cases hshort : line.length ≤ 0 + before.length + method.length + 1
  · simp only [if_pos hshort]
    exact .inr ⟨_, fun _ => rfl⟩
  simp only [if_neg hshort]
  obtain rfl := eq_of_beq hsp
  have h₂ := drop_cons_of_drop h₁
  cases hs : httpFindChar line (0 + before.length + method.length + 1) 47
      (line.length - (0 + before.length + method.length + 1)) with
  | none => exact .inr ⟨_, fun _ => rfl⟩
  | some s =>
  obtain ⟨between, sl, r₃, hsplit, rfl, hbetween, hsl⟩ := scan_split hs
  simp only
  obtain rfl := eq_of_beq hsl
  have h₃ := drop_of_drop hsplit
  cases hp : httpFindChar line (0 + before.length + method.length + 1 + between.length) 32
      (line.length - (0 + before.length + method.length + 1 + between.length)) with
  | none => exact .inr ⟨_, fun _ => rfl⟩
  | some p =>
  obtain ⟨url, sp, rest, h₄, rfl, hurl, hsp⟩ := scan_split hp
  obtain rfl := eq_of_beq hsp
  simp only [slice_append h₄]
  by_cases hshort : line.length ≤
      0 + before.length + method.length + 1 + between.length + url.length + 1
  · simp only [if_pos hshort]
    exact .inr ⟨_, fun _ => rfl⟩
  -- everything is found
  have hfrom : m :: r₁ = method ++ 32 :: r₂ := (drop_of_drop h₀).symm.trans h₁
  have hr₂ : r₂ = between ++ 47 :: r₃ := h₂.symm.trans hsplit
  have hr₃ : 47 :: r₃ = url ++ 32 :: rest := h₃.symm.trans h₄
  rw [List.drop_zero, hfrom, hr₂, hr₃] at h₀
  have hletter' : method.head?.any isalpha = true := by
    cases method with
    | nil =>
      rw [(List.cons.inj hfrom).1] at hletter
      exact absurd hletter (by decide)
    | cons m' method =>
      rw [(List.cons.inj hfrom).1] at hletter
      exact hletter
  have hslash : url.head? = some 47 := by
    cases url with
    | nil => exact absurd (List.cons.inj hr₃).1 (by decide)
    | cons u url => exact congrArg some (List.cons.inj hr₃).1.symm
  have hrest : rest ≠ [] := by
    rintro rfl
    rw [h₀] at hshort
    simp only [List.length_append, List.length_cons, List.length_nil] at hshort
    omega
  refine .inl ⟨⟨before, method, between, url, rest, hbefore, hletter', not_mem_of_beq hmethod,
    not_mem_of_beq hbetween, hslash, not_mem_of_beq hurl, hrest⟩, ?_⟩
  rw [h₀, LineParts.bytes, LineParts.start]
  simp

end Http
end Dukserver
