/-
# The headers of a block

`_http_parse_lines` and `_http_parse_header` in `libhttpd/http_parse.c`, on header blocks
of any bytes.  Behind an accepted first line each line up to the first empty one stores
one entry, in their order, and a line without colon makes the parser reject the block
(`httpParseHeaders_lines`).

The name under which a line is stored starts at the first letter of the line, so what is
before it in the field name is lost: two lines are stored under different keys exactly if
their texts from the first letter to the colon differ (`storedApart_iff`).
-/

import Dukserver.Http.RequestLine

namespace Dukserver
namespace Http

open Lib (Bytes ascii cstr crlfLines isalpha isspace isdigit)

/-- `http_parse_request_headers` and `http_parse_response_headers`. -/
def httpParseHeaders : HttpParseType → Bytes → ℕ → HttpMap → Bool × HttpMap
  | .request => httpParseRequestHeaders
  | .response => httpParseResponseHeaders

/-- Both parsers are the one of lines, with their own first line. -/
theorem httpParseHeaders_eq (type : HttpParseType) :
    httpParseHeaders type = httpParseLines type := by
  cases type <;> rfl

/-- The lines of a block behind the first one, up to the first empty line. -/
def laterLines (text : Bytes) : List Bytes := (crlfLines text).tail.takeWhile (· != [])

/-- What a line does to the dictionary. -/
def storeLine (m : HttpMap) (l : Bytes) : HttpMap := httpMapSet m (lineName l) (lineValue l)

/-- A result is what header lines leave: they are accepted exactly if each has a
colon, and then they are stored one after the other. -/
structure LeftBy (lines : List Bytes) (hdr : HttpMap) (result : Bool × HttpMap) : Prop where
  accepted : result.1 = true ↔ ∀ l ∈ lines, 58 ∈ l
  stored : result.1 = true → result.2 = lines.foldl storeLine hdr

section Block

variable {type : HttpParseType} {mem l text tail rest : Bytes} {lines : List Bytes}
  {s lineno : ℕ} {hdr hdr' dict : HttpMap} {result : Bool × HttpMap}

/-- Without lines nothing is stored, and the block is accepted. -/
theorem LeftBy.nil : LeftBy [] hdr (true, hdr) :=
  ⟨⟨fun _ _ hl => absurd hl List.not_mem_nil, fun _ => rfl⟩, fun _ => rfl⟩

/-- A line without colon ends the parsing, and what was stored before it stays. -/
theorem LeftBy.reject (h : 58 ∉ l) : LeftBy (l :: lines) hdr (false, hdr') :=
  ⟨⟨fun hfalse => absurd hfalse Bool.false_ne_true,
    fun hall => absurd (hall l (List.mem_cons_self ..)) h⟩,
    fun hfalse => absurd hfalse Bool.false_ne_true⟩

/-- A line with a colon comes before the lines behind it. -/
theorem LeftBy.cons (h : 58 ∈ l) (hrest : LeftBy lines (storeLine hdr l) result) :
    LeftBy (l :: lines) hdr result :=
  ⟨hrest.accepted.trans (by simp [h]), hrest.stored⟩

/-- **The loop behind the first line** gives each line of a block to
`_http_parse_header` until one is empty or has no colon. -/
theorem parseLinesLoop_headers (h : mem.drop s = block lines ++ rest) (hlineno : 0 < lineno)
    (hlines : ∀ l ∈ lines, ¬[13, 10] <:+: l)
    (hletter : ∀ l ∈ lines.takeWhile (· != []), l.head?.any isalpha = true) :
    LeftBy (lines.takeWhile (· != [])) hdr
      (parseLinesLoop type mem ((block lines).length - 1) s s lineno hdr) := by
  induction lines generalizing s lineno hdr with
  | nil =>
    have hend : mem.drop s = 13 :: 10 :: rest := h
    rw [show (block []).length - 1 = 0 + 1 from rfl, parseLinesLoop_end hend]
    exact .nil
  | cons l lines ih =>
    have hlen := two_le_length_block lines
    obtain ⟨hsplit, hdrop⟩ := drop_block_cons h
    by_cases hl : l = []
    · subst hl
      rw [length_block_cons, show (block lines).length - 1 + (([] : Bytes).length + 2) =
        (block lines).length + 1 from by rw [List.length_nil]; omega, parseLinesLoop_end hsplit]
      exact .nil
    · have hkeep : (l :: lines).takeWhile (· != []) = l :: lines.takeWhile (· != []) :=
        List.takeWhile_cons_of_pos (bne_iff_ne.2 hl)
      rw [hkeep] at hletter ⊢
      have hline : httpParseLine type lineno mem s l.length hdr =
          if 58 ∈ l then (true, storeLine hdr l) else (false, hdr) := by
        rw [httpParseLine, if_neg (by omega), httpParseHeader_line hsplit,
          fromLetter_of_letter (hletter l (List.mem_cons_self ..)), storeLine]
      by_cases hcolon : 58 ∈ l
      · rw [if_pos hcolon] at hline
        rw [parseLinesLoop_block_cons h hl (hlines l (List.mem_cons_self ..)) hline]
        exact .cons hcolon (ih hdrop (Nat.succ_pos _)
          (fun m hm => hlines m (List.mem_cons_of_mem _ hm))
          fun m hm => hletter m (List.mem_cons_of_mem _ hm))
      · rw [if_neg hcolon] at hline
        have hpos := List.length_pos_iff.2 hl
        have hreject : parseLinesLoop type mem ((block lines).length - 1 + (l.length + 2)) s s
            lineno hdr = (false, hdr) := by
          rw [show (block lines).length - 1 + (l.length + 2) =
              (block lines).length + 1 + l.length by omega, parseLinesLoop_skips fun i hi =>
              atCrlf_of_not_infix hsplit (hlines l (List.mem_cons_self ..)) hi]
          refine parseLinesLoop_reject (atCrlf_of_drop hsplit) (by omega) ?_
          rwa [Nat.add_sub_cancel_left]
        rw [length_block_cons, hreject]
        exact .reject hcolon

/-- An empty first line is accepted by neither parser. -/
theorem httpParseFirstLine_empty : httpParseFirstLine type mem 0 0 hdr = (false, hdr) := by
  cases type <;> rfl

/-- The two empty lines at the end are no header lines. -/
theorem takeWhile_append_empty (lines : List Bytes) :
    (lines ++ [[], []]).takeWhile (· != []) = lines.takeWhile (· != []) := by
  induction lines with
  | nil => rfl
  | cons l lines ih =>
    rw [List.cons_append, List.takeWhile_cons, List.takeWhile_cons, ih]

/-- A text with CRLFCRLF at its end is a block of the lines before that. -/
theorem block_crlfLines (body : Bytes) : block (crlfLines body) = body ++ CRLFCRLF := by
  rw [block, Lib.flatten_crlfLines, List.append_assoc]
  rfl

/-- **Every header block with an accepted first line is read line by line.**  It
is accepted exactly if each line behind the first one and before an empty one
has a colon, and then these lines are stored in their order. -/
theorem httpParseHeaders_lines (hend : CRLFCRLF <:+ text)
    (hfirst : httpParseFirstLine type (text ++ tail) 0 ((crlfLines text).headD []).length hdr =
      (true, dict))
    (hletter : ∀ l ∈ laterLines text, l.head?.any isalpha = true) :
    ((httpParseHeaders type (text ++ tail) text.length hdr).1 = true ↔
      ∀ l ∈ laterLines text, 58 ∈ l) ∧
    ((httpParseHeaders type (text ++ tail) text.length hdr).1 = true →
      (httpParseHeaders type (text ++ tail) text.length hdr).2 =
        (laterLines text).foldl storeLine dict) := by
  obtain ⟨body, rfl⟩ := hend
  have hlines : crlfLines (body ++ CRLFCRLF) = crlfLines body ++ [[], []] :=
    Lib.crlfLines_append body [13, 10]
  have hcut : ∀ l ∈ crlfLines body, ¬[13, 10] <:+: l := fun l hl =>
    Lib.not_infix_of_mem_crlfLines hl
  have hblock := block_crlfLines body
  rcases hbody : crlfLines body with _ | ⟨first, more⟩
  · exact absurd hbody (Lib.crlfLines_ne_nil body)
  rw [hbody] at hlines hcut hblock
  have hheaders : laterLines (body ++ CRLFCRLF) = more.takeWhile (· != []) := by
    rw [laterLines, hlines]
    exact takeWhile_append_empty more
  rw [hheaders] at hletter ⊢
  rw [hlines] at hfirst
  rw [← hblock] at hfirst ⊢
  have hne : first ≠ [] := by
    rintro rfl
    exact absurd (httpParseFirstLine_empty.symm.trans hfirst) (by simp)
  have hat : (block (first :: more) ++ tail).drop 0 = block (first :: more) ++ tail :=
    List.drop_zero
  have hline : httpParseLine type 0 (block (first :: more) ++ tail) 0 first.length hdr =
      (true, dict) := hfirst
  have hleft : LeftBy (more.takeWhile (· != [])) dict
      (parseLinesLoop type (block (first :: more) ++ tail) ((block more).length - 1)
        (0 + (first.length + 2)) (0 + (first.length + 2)) 1 dict) :=
    parseLinesLoop_headers (drop_block_cons hat).2 Nat.one_pos
      (fun l hl => hcut l (List.mem_cons_of_mem _ hl)) hletter
  rw [← parseLinesLoop_block_cons hat hne (hcut first (List.mem_cons_self ..)) hline] at hleft
  rw [httpParseHeaders_eq]
  exact ⟨hleft.accepted, hleft.stored⟩

/-- A name with a space before the colon, a value with a colon and an empty
value. -/
def spacedBlock : Bytes := ascii "GET / HTTP/1.1\r\nA : b: c \r\nB:\r\n\r\n"

/-- The hypotheses are satisfiable, for a block with blanks around its names and
values. -/
theorem httpParseHeaders_lines_spaced :
    (httpParseHeaders .request (spacedBlock ++ []) spacedBlock.length (httpMapNew 9)).1 = true ∧
      (httpParseHeaders .request (spacedBlock ++ []) spacedBlock.length (httpMapNew 9)).2.values =
        lineEntries (ascii "GET") (ascii "/") (ascii "HTTP/1.1") ++
          [(ascii "A", some (ascii "b: c")), (ascii "B", none)] := by
  have hend : CRLFCRLF <:+ spacedBlock := by decide +kernel
  have hfirst : httpParseFirstLine .request (spacedBlock ++ []) 0
      ((crlfLines spacedBlock).headD []).length (httpMapNew 9) =
        (true, ⟨9, lineEntries (ascii "GET") (ascii "/") (ascii "HTTP/1.1")⟩) := by
    decide +kernel
  obtain ⟨haccepted, hstored⟩ := httpParseHeaders_lines hend hfirst (by decide +kernel)
  have hok := haccepted.2 (by decide +kernel)
  exact ⟨hok, by rw [hstored hok]; decide +kernel⟩

end Block

/-! ### Keys of different fields -/

/-- A character of a token: a letter, a digit or one of these. -/
def isToken (c : UInt8) : Bool := isalpha c || isdigit c || (ascii "!#$%&'*+-.^_`|~").contains c

/-- The name of the field of a line: what is before the colon, without spaces
around. -/
def fieldName (l : Bytes) : Bytes :=
  ((l.takeWhile (· != 58)).dropWhile (· == 32)).rdropWhile (· == 32)

/-- A line with a colon behind a token. -/
structure FieldLine (l : Bytes) : Prop where
  colon : 58 ∈ l
  nonempty : fieldName l ≠ []
  token : ∀ c ∈ fieldName l, isToken c = true

/-- Wherever the line is, `_http_parse_header` stores it under this key. -/
def StoredUnder (l k : Bytes) : Prop :=
  ∀ mem s rest hdr, mem.drop s = l ++ rest → ∃ name v, cstr name = k ∧
    httpParseHeader mem s l.length hdr = (true, httpMapSet hdr name v)

/-- Both lines are stored, under different keys. -/
def StoredApart (l₁ l₂ : Bytes) : Prop :=
  ∃ k₁ k₂, StoredUnder l₁ k₁ ∧ StoredUnder l₂ k₂ ∧ k₁ ≠ k₂

/-- What the line is stored under: its name from the first letter on, or, if
there is no letter in it, what would be the name in the text behind the colon. -/
def keyText (l : Bytes) : Option Bytes :=
  if (fieldName l).any isalpha then some (fromLetter (fieldName l))
  else
    let value := fromLetter (l.dropWhile (· != 58)).tail
    if 58 ∈ value then some (cstr (lineName value)) else none

section Keys

variable {l l₁ l₂ name u t k : Bytes}

/-- A line is stored under the name from its first letter on, if there is a
colon behind it. -/
theorem storedUnder_iff :
    StoredUnder l k ↔ 58 ∈ fromLetter l ∧ cstr (lineName (fromLetter l)) = k := by
  constructor
  · intro h
    have hdrop : l.drop 0 = l ++ [] := (List.append_nil l).symm
    obtain ⟨name, v, hk, hstored⟩ := h l 0 [] (httpMapNew 0) hdrop
    rw [httpParseHeader_line hdrop] at hstored
    split_ifs at hstored with hcolon
    · refine ⟨hcolon, ?_⟩
      have hvalues := congrArg (fun r => r.2.keys) hstored
      rw [← hk]
      exact List.head_eq_of_cons_eq hvalues
    · exact absurd (Prod.mk.inj hstored).1 Bool.false_ne_true
  · rintro ⟨hcolon, hk⟩ mem s rest hdr hdrop
    refine ⟨lineName (fromLetter l), lineValue (fromLetter l), hk, ?_⟩
    rw [httpParseHeader_line hdrop, if_pos hcolon]

/-- What is before the first letter is lost, on each side of a place: the first
letter is in the first part, or nothing of that is left. -/
theorem fromLetter_append (t u : Bytes) :
    fromLetter (t ++ u) = if t.any isalpha then fromLetter t ++ u else fromLetter u := by
  induction t with
  | nil => rfl
  | cons c t ih =>
    cases hc : isalpha c with
    | true =>
      rw [List.any_cons, hc, Bool.true_or, if_pos rfl, List.cons_append]
      simp only [fromLetter]
      rw [List.dropWhile_cons_of_neg (by simp [hc]), List.dropWhile_cons_of_neg (by simp [hc]),
        List.cons_append]
    | false =>
      rw [List.any_cons, hc, Bool.false_or, List.cons_append]
      simp only [fromLetter] at ih ⊢
      rw [List.dropWhile_cons_of_pos (by simp [hc]), List.dropWhile_cons_of_pos (by simp [hc]), ih]

/-- Everything is lost of a text without a letter. -/
theorem fromLetter_eq_nil_iff : fromLetter t = [] ↔ t.any isalpha = false := by
  rw [fromLetter, List.dropWhile_eq_nil_iff, List.any_eq_false]
  simp

/-- Spaces before a text are skipped. -/
theorem fromLetter_dropWhile_space (t : Bytes) :
    fromLetter (t.dropWhile (· == 32)) = fromLetter t := by
  induction t with
  | nil => rfl
  | cons c t ih =>
    rw [List.dropWhile_cons]
    split_ifs with hc
    · rw [ih, eq_of_beq hc, fromLetter, fromLetter, List.dropWhile_cons_of_pos (by decide)]
    · rfl

/-- Spaces behind a text can be taken off before: a space is no letter, so what
is taken off at the end is never what the text begins with. -/
theorem fromLetter_rdropWhile_space (t : Bytes) :
    fromLetter (t.rdropWhile (· == 32)) = (fromLetter t).rdropWhile (· == 32) := by
  induction t using List.reverseRecOn with
  | nil => rfl
  | append_singleton t c ih =>
    rw [fromLetter_append]
    by_cases hc : (c == 32) = true
    · rw [List.rdropWhile_concat_pos (· == 32) _ _ hc, ih]
      split_ifs with hletter
      · rw [List.rdropWhile_concat_pos (· == 32) _ _ hc]
      · rw [fromLetter_eq_nil_iff.2 (Bool.eq_false_iff.2 hletter), eq_of_beq hc]
        rfl
    · rw [List.rdropWhile_concat_neg (· == 32) _ _ hc, fromLetter_append]
      split_ifs with hletter
      · rw [List.rdropWhile_concat_neg (· == 32) _ _ hc]
      · have hlast := List.rdropWhile_concat_neg (· == 32) [] _ hc
        cases hletter : isalpha c with
        | true =>
          have hc' : fromLetter [c] = [c] := fromLetter_of_letter hletter
          rw [hc']
          exact hlast.symm
        | false => rw [fromLetter_eq_nil_iff.2 (by simp [hletter]), List.rdropWhile_nil]

/-- The name of a field from its first letter on. -/
theorem fromLetter_fieldName (hname : 58 ∉ name) :
    fromLetter (fieldName (name ++ 58 :: u)) = (fromLetter name).rdropWhile (· == 32) := by
  rw [fieldName, List.takeWhile_append_of_pos (bne_of_not_mem hname),
    List.takeWhile_cons_of_neg (by decide), List.append_nil, fromLetter_rdropWhile_space,
    fromLetter_dropWhile_space]

/-- A field name has a letter exactly if there is one before the colon: the
blanks that are taken off are none. -/
theorem fieldName_any_isalpha (hname : 58 ∉ name) :
    (fieldName (name ++ 58 :: u)).any isalpha = name.any isalpha := by
  have hnil : fromLetter (fieldName (name ++ 58 :: u)) = [] ↔ fromLetter name = [] := by
    rw [fromLetter_fieldName hname, List.rdropWhile_eq_nil_iff]
    constructor
    · intro hall
      cases hl : fromLetter name with
      | nil => rfl
      | cons c t =>
        have hspace := hall c (by rw [hl]; exact List.mem_cons_self ..)
        exact absurd (eq_of_beq hspace) (isalpha_ne (isalpha_of_fromLetter hl)).2.1
    · intro he
      rw [he]
      exact fun c hc => absurd hc List.not_mem_nil
  rwa [fromLetter_eq_nil_iff, fromLetter_eq_nil_iff, Bool.coe_false_iff_false,
    Bool.not_inj_iff] at hnil

/-- **The key of a line with a colon** is its name from the first letter on, up
to a NUL. -/
theorem storedUnder_iff_keyText (h : FieldLine l) : StoredUnder l k ↔ keyText l = some k := by
  have hzero : 0 ∉ fromLetter (fieldName l) := fun hmem =>
    absurd (h.token 0 ((List.dropWhile_suffix _).subset hmem)) (by decide)
  obtain ⟨name, u, rfl, hname⟩ := List.eq_append_cons_of_mem h.colon
  rw [storedUnder_iff, keyText, fieldName_any_isalpha hname, fromLetter_append,
    List.dropWhile_append_of_pos (bne_of_not_mem hname), List.dropWhile_cons_of_neg (by decide),
    List.tail_cons]
  cases hletter : name.any isalpha with
  | true =>
    have hname' : 58 ∉ fromLetter name := fun hmem => hname ((List.dropWhile_suffix _).subset hmem)
    rw [if_pos rfl, if_pos rfl, lineName_append hname', ← fromLetter_fieldName hname,
      Lib.cstr_of_not_mem hzero, Option.some.injEq]
    exact and_iff_right (List.mem_append_right _ (List.mem_cons_self ..))
  | false =>
    have hskip : fromLetter (58 :: u) = fromLetter u := rfl
    rw [if_neg Bool.false_ne_true, if_neg Bool.false_ne_true, hskip]
    by_cases hcolon : 58 ∈ fromLetter u
    · rw [if_pos hcolon, Option.some.injEq]
      exact and_iff_right hcolon
    · rw [if_neg hcolon]
      exact ⟨fun hk => absurd hk.1 hcolon, fun hk => absurd hk (by simp)⟩

/-- **Two fields are stored under different keys exactly if both have a key and
what counts of their names differs**: with letters in both names, the names from
the first letter on. -/
theorem storedApart_iff (h₁ : FieldLine l₁) (h₂ : FieldLine l₂) :
    StoredApart l₁ l₂ ↔ keyText l₁ ≠ none ∧ keyText l₂ ≠ none ∧ keyText l₁ ≠ keyText l₂ := by
  constructor
  · rintro ⟨k₁, k₂, hk₁, hk₂, hne⟩
    rw [storedUnder_iff_keyText h₁] at hk₁
    rw [storedUnder_iff_keyText h₂] at hk₂
    rw [hk₁, hk₂]
    exact ⟨Option.some_ne_none _, Option.some_ne_none _, fun he => hne (Option.some.inj he)⟩
  · rintro ⟨hsome₁, hsome₂, hne⟩
    obtain ⟨k₁, hk₁⟩ := Option.ne_none_iff_exists'.1 hsome₁
    obtain ⟨k₂, hk₂⟩ := Option.ne_none_iff_exists'.1 hsome₂
    refine ⟨k₁, k₂, (storedUnder_iff_keyText h₁).2 hk₁, (storedUnder_iff_keyText h₂).2 hk₂, ?_⟩
    rintro rfl
    exact hne (hk₁.trans hk₂.symm)

/-- Two ordinary names. -/
theorem storedApart_ordinary : StoredApart (ascii "Host: a") (ascii "Via: b") :=
  (storedApart_iff ⟨by decide, by decide, List.all_eq_true.1 (by decide)⟩
    ⟨by decide, by decide, List.all_eq_true.1 (by decide)⟩).2 (by decide)

/-- A digit before a name is lost, and the field is stored as another one, with
whose field it is confused then. -/
theorem storedUnder_digit :
    FieldLine (ascii "1Host: a") ∧ FieldLine (ascii "Host: b") ∧
      fieldName (ascii "1Host: a") ≠ fieldName (ascii "Host: b") ∧
      ¬StoredApart (ascii "1Host: a") (ascii "Host: b") := by
  have h₁ : FieldLine (ascii "1Host: a") :=
    ⟨by decide, by decide, List.all_eq_true.1 (by decide)⟩
  have h₂ : FieldLine (ascii "Host: b") :=
    ⟨by decide, by decide, List.all_eq_true.1 (by decide)⟩
  refine ⟨h₁, h₂, by decide, ?_⟩
  rintro ⟨k₁, k₂, hk₁, hk₂, hne⟩
  rw [storedUnder_iff_keyText h₁] at hk₁
  rw [storedUnder_iff_keyText h₂] at hk₂
  have hsame : keyText (ascii "1Host: a") = keyText (ascii "Host: b") := by decide
  exact hne (Option.some.inj (hk₁.symm.trans (hsame.trans hk₂)))

end Keys

end Http
end Dukserver
