/-
# What a header line stores

`_http_parse_header` in `libhttpd/http_parse.c`, on a line of any bytes.  The parser
goes to the first letter of the line and to the first colon behind it.  The name is what
is between the two without the spaces before the colon, the value what follows the colon
without white space on both sides, and `NULL` if that is nothing (`httpParseHeader_line`).
-/

import Dukserver.Http.Parse
import Mathlib.Data.List.DropRight

namespace Dukserver
namespace Http

open Lib (Bytes byteAt slice isalpha isspace)

/-- A line from its first letter on. -/
def fromLetter (l : Bytes) : Bytes := l.dropWhile fun c => !isalpha c

/-- The text before the first colon, without the spaces at its end. -/
def lineName (l : Bytes) : Bytes := (l.takeWhile (· != 58)).rdropWhile (· == 32)

/-- A text without white space on both sides. -/
def stripped (u : Bytes) : Bytes := (u.dropWhile isspace).rdropWhile isspace

/-- What is stored for a text, `NULL` if nothing is left of it. -/
def strippedValue (u : Bytes) : Option Bytes := if stripped u = [] then none else some (stripped u)

/-- The value of a line, from the text behind the first colon. -/
def lineValue (l : Bytes) : Option Bytes := strippedValue (l.dropWhile (· != 58)).tail

section

variable {mem l t u name rest : Bytes} {s p : ℕ} {hdr : HttpMap}

/-- A byte that is not in a text differs from each of it. -/
theorem bne_of_not_mem {ch : UInt8} (h : ch ∉ t) : ∀ c ∈ t, (c != ch) = true := by
  rintro c hc
  rw [bne_iff_ne]
  rintro rfl
  exact h hc

/-- The name of a line ends at its first colon, without the blanks before it. -/
theorem lineName_append (h : 58 ∉ name) :
    lineName (name ++ 58 :: u) = name.rdropWhile (· == 32) := by
  rw [lineName, List.takeWhile_append_of_pos (bne_of_not_mem h),
    List.takeWhile_cons_of_neg (by decide), List.append_nil]

/-- And the value begins behind it. -/
theorem lineValue_append (h : 58 ∉ name) : lineValue (name ++ 58 :: u) = strippedValue u := by
  rw [lineValue, List.dropWhile_append_of_pos (bne_of_not_mem h),
    List.dropWhile_cons_of_neg (by decide), List.tail_cons]

/-- A line that starts with a letter is read from its start. -/
theorem fromLetter_of_letter (h : l.head?.any isalpha = true) : fromLetter l = l := by
  cases l with
  | nil => rfl
  | cons c t =>
    have hc : isalpha c = true := h
    rw [fromLetter, List.dropWhile_cons_of_neg (by rw [hc]; decide)]

/-- White space on both sides is taken off, and no more, as the value neither
begins nor ends with any. -/
theorem stripped_append {before value after : Bytes} (hbefore : ∀ c ∈ before, isspace c = true)
    (hafter : ∀ c ∈ after, isspace c = true) (hstart : ∀ c ∈ value.head?, isspace c = false)
    (hend : ∀ c ∈ value.getLast?, isspace c = false) :
    stripped (before ++ (value ++ after)) = value := by
  have hnone : after.dropWhile isspace = [] := List.dropWhile_eq_nil_iff.2 hafter
  rw [stripped, List.dropWhile_append_of_pos hbefore]
  cases value with
  | nil => rw [List.nil_append, hnone, List.rdropWhile_nil]
  | cons v vs =>
    rw [List.cons_append, List.dropWhile_cons_of_neg (Bool.eq_false_iff.1 (hstart v rfl)),
      ← List.cons_append, List.rdropWhile, List.reverse_append,
      List.dropWhile_append_of_pos fun c hc => hafter c (List.mem_reverse.1 hc), ← List.rdropWhile,
      List.rdropWhile_eq_self_iff]
    intro hne
    exact Bool.eq_false_iff.1 (hend _ (List.getLast?_eq_some_getLast hne))

/-- What is read of a line starts with a letter. -/
theorem isalpha_of_fromLetter {c : UInt8} (h : fromLetter l = c :: t) : isalpha c = true := by
  have hhead := List.head?_dropWhile_not (fun c => !isalpha c) l
  rw [show (l.dropWhile fun c => !isalpha c) = c :: t from h, List.head?_cons] at hhead
  simpa using hhead

/-- Going back over the spaces at the end of a text that starts with a letter:
it stops at the letter at the latest. -/
theorem skipSpacesBack_of_letter (h : mem.drop s = t ++ rest) (ht : t.head?.any isalpha = true) :
    skipSpacesBack mem (s + t.length) = s + (t.rdropWhile (· == 32)).length := by
  induction t using List.reverseRecOn generalizing rest with
  | nil => exact absurd ht Bool.false_ne_true
  | append_singleton t c ih =>
    have hsplit : mem.drop s = t ++ c :: rest := by rw [h, List.append_assoc]; rfl
    rw [List.length_append, List.length_singleton, ← Nat.add_assoc, skipSpacesBack,
      byteAt_of_drop hsplit]
    by_cases hc : c = 32
    · have hletter : t.head?.any isalpha = true := by
        cases t with
        | nil =>
          subst hc
          exact absurd ht (by decide)
        | cons d t => exact ht
      rw [if_pos (beq_iff_eq.2 hc), ih hsplit hletter,
        List.rdropWhile_concat_pos (· == 32) _ _ (beq_iff_eq.2 hc)]
    · rw [if_neg (mt beq_iff_eq.1 hc),
        List.rdropWhile_concat_neg (· == 32) _ _ (mt beq_iff_eq.1 hc), List.length_append,
        List.length_singleton, Nat.add_assoc]

/-- The last byte of a text that is not white space, found from the end
backwards. -/
theorem httpRfindNwhite_of_drop (h : mem.drop s = u ++ rest) :
    httpRfindNwhite mem s u.length =
      if u.rdropWhile isspace = [] then none
      else some (s + ((u.rdropWhile isspace).length - 1)) := by
  induction u using List.reverseRecOn generalizing rest with
  | nil => rfl
  | append_singleton u c ih =>
    have hsplit : mem.drop s = u ++ c :: rest := by rw [h, List.append_assoc]; rfl
    rw [List.length_append, List.length_singleton, httpRfindNwhite, rscan, byteAt_of_drop hsplit,
      ← httpRfindNwhite]
    cases hc : isspace c with
    | true => rw [List.rdropWhile_concat_pos _ _ _ hc, ih hsplit]; rfl
    | false =>
      rw [List.rdropWhile_concat_neg _ _ _ (Bool.eq_false_iff.1 hc),
        if_neg (List.append_ne_nil_of_right_ne_nil _ (List.cons_ne_nil _ _)), List.length_append]
      rfl

/-- **What is stored for the text behind the colon**: it without white space on
both sides, or `NULL` if that is nothing. -/
theorem headerValue_of_drop (h : mem.drop (p + 1) = u ++ rest) :
    headerValue mem p (p + 1 + u.length) = strippedValue u := by
  rw [headerValue, show p + 1 + u.length - p - 1 = u.length by omega]
  cases hu : u.dropWhile isspace with
  | nil =>
    have hnone : httpFindNwhite mem (p + 1) u.length = none :=
      scan_none_of_dropWhile (fun _ => rfl) h hu
    rw [hnone, strippedValue, stripped, hu]
    rfl
  | cons y ys =>
    obtain ⟨n, hfind, hdrop, hlen⟩ := scan_of_dropWhile (fun _ => rfl) h hu
    have hy : isspace y = false := by
      have hhead := List.head?_dropWhile_not isspace u
      rwa [hu, List.head?_cons] at hhead
    have hback := httpRfindNwhite_of_drop hdrop
    have hkept : (y :: ys).rdropWhile isspace ≠ [] := fun hnil =>
      Bool.eq_false_iff.1 hy (List.rdropWhile_eq_nil_iff.1 hnil y (List.mem_cons_self ..))
    obtain ⟨zs, hzs⟩ := List.rdropWhile_prefix isspace (l := y :: ys)
    have hpos := List.length_pos_iff.2 hkept
    rw [if_neg hkept] at hback
    rw [httpFindNwhite, hfind, strippedValue, stripped, hu, if_neg hkept]
    simp only [show p + 1 + u.length - (p + 1 + n) = (y :: ys).length by omega, hback,
      Option.map_some]
    have hslice : mem.drop (p + 1 + n) = (y :: ys).rdropWhile isspace ++ (zs ++ rest) := by
      rw [← List.append_assoc, hzs, hdrop]
    rw [Nat.add_assoc _ (_ - 1), Nat.sub_add_cancel hpos, slice_of_drop hslice]

/-- The line from its first letter on is searched for the colon. -/
theorem httpFindChar_colon (h : mem.drop s = t ++ rest) (hname : 58 ∉ name)
    (ht : t = name ++ 58 :: u) : httpFindChar mem s 58 t.length = some (s + name.length) := by
  have hsplit : mem.drop s = name ++ 58 :: (u ++ rest) := by rw [h, ht, List.append_assoc]; rfl
  refine scan_of_drop hsplit (beq_of_not_mem hname) rfl ?_
  rw [ht, List.length_append, List.length_cons]
  omega

/-- **A header line stores one entry if there is a colon behind its first
letter**, and is rejected otherwise. -/
theorem httpParseHeader_line (h : mem.drop s = l ++ rest) :
    httpParseHeader mem s l.length hdr =
      if 58 ∈ fromLetter l then
        (true, httpMapSet hdr (lineName (fromLetter l)) (lineValue (fromLetter l)))
      else (false, hdr) := by
  have hneg : ∀ c, isalpha c = !!isalpha c := fun c => (Bool.not_not _).symm
  cases hl : fromLetter l with
  | nil =>
    have hnone : httpFindAlpha mem s l.length = none := scan_none_of_dropWhile hneg h hl
    rw [httpParseHeader, hnone, if_neg List.not_mem_nil]
  | cons c t =>
    have hletter := isalpha_of_fromLetter hl
    obtain ⟨n, hfind, hdrop, hlen⟩ := scan_of_dropWhile hneg h hl
    rw [httpParseHeader, httpFindAlpha, hfind]
    simp only [show s + l.length - (s + n) = (c :: t).length by omega]
    split_ifs with hcolon
    · obtain ⟨name, u, ht, hname⟩ := List.eq_append_cons_of_mem hcolon
      have hstart : name.head?.any isalpha = true := by
        cases name with
        | nil =>
          obtain rfl : c = 58 := (List.cons.inj ht).1
          exact absurd hletter (by decide)
        | cons d name =>
          obtain rfl : c = d := (List.cons.inj ht).1
          exact hletter
      have hname' : mem.drop (s + n) = name ++ (58 :: u ++ rest) := by
        rw [hdrop, ht, List.append_assoc]
      have hvalue : mem.drop (s + n + name.length + 1) = u ++ rest :=
        drop_cons_of_drop hname'
      have hend : s + l.length = s + n + name.length + 1 + u.length := by
        rw [hlen, ht, List.length_append, List.length_cons]
        omega
      obtain ⟨zs, hzs⟩ := List.rdropWhile_prefix (· == 32) (l := name)
      have hkept : mem.drop (s + n) =
          name.rdropWhile (· == 32) ++ (zs ++ (58 :: u ++ rest)) := by
        rw [← List.append_assoc, hzs, hname']
      rw [httpFindChar_colon hdrop hname ht]
      simp only [skipSpacesBack_of_letter hname' hstart]
      rw [hend, headerValue_of_drop hvalue, ht, lineName_append hname, lineValue_append hname,
        slice_of_drop hkept]
    · have hnone : httpFindChar mem (s + n) 58 (c :: t).length = none :=
        scan_none_of_drop hdrop (beq_of_not_mem hcolon)
      rw [hnone]

end

end Http
end Dukserver
