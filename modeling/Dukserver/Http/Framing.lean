/-
# What a peer makes of a message

A peer that keeps the connection reads the bytes that arrive up to the first blank line, looks
there for the line `Content-Length`, whose name it compares without regard to case, and takes
so many of the next bytes for the body (`readMessage`, `lengthValues`).  It sees neither the
dictionary the message was built from nor the calls it was sent by.

A name or value that holds a blank line therefore ends the header block early, and all that
stands behind it is body (`readMessage_of_blank`).  A line without CR cannot do that
(`indexOf_behind_line`).
-/

import Dukserver.Http.RecvHeaders
import Dukserver.Http.SendResponse
import Dukserver.Http.UrlDecode

namespace Dukserver
namespace Http

open Lib (Bytes ascii crlfLines crlfLines_append crlfLines_of_not_mem indexOf indexOf_append
  indexOf_eq_none indexOf_eq_some indexOf_append_of_skip Numeral sprintfD)

/-- The lines in front of the first blank line of a message, and the bytes
behind it. -/
def readMessage (m : Bytes) : Option (Bytes × Bytes) :=
  (indexOf CRLFCRLF m).map fun i => (m.take i, m.drop (i + 4))

/-- The value of a line whose name is `Content-Length` in capital or small
letters. -/
def contentLengthValue (l : Bytes) : Option Bytes :=
  if (l.take 15).map tolower = ascii "content-length:" then some (l.drop 15) else none

/-- The values of the lines of that name. -/
def lengthValues (text : Bytes) : List Bytes := (crlfLines text).filterMap contentLengthValue

/-- The number in decimal, with blanks around it. -/
def DecimalValue (v : Bytes) (n : ℕ) : Prop :=
  ∃ before ds after, v = before ++ ds ++ after ∧ (∀ c ∈ before ++ after, c = 32 ∨ c = 9) ∧
    Numeral ds n

/-- What the text that an entry of the dictionary puts into the header block
announces. -/
def entryLengths (p : Bytes × Option Bytes) : List Bytes :=
  match p.2 with
  | none => []
  | some v => if p.1.head? = some 32 then [] else lengthValues (p.1 ++ ascii ": " ++ v)

/-- The lines have one value of that name, and it is the number `n`. -/
def AnnouncesOnce (lines : Bytes) (n : ℕ) : Prop :=
  ∃ v, lengthValues lines = [v] ∧ DecimalValue v n

/-- The lines announce `n` bytes: one of them does, or none has the name and `n`
is 0. -/
def Announces (lines : Bytes) (n : ℕ) : Prop :=
  lengthValues lines = [] ∧ n = 0 ∨ AnnouncesOnce lines n

section Reading

variable {a front line rest k v : Bytes} {i : ℕ}

/-- A blank line ends the header block wherever it is, and the rest belongs to
the body. -/
theorem readMessage_of_blank (h : indexOf CRLFCRLF a = some i) (b : Bytes) :
    readMessage (a ++ b) = some (a.take i, a.drop (i + 4) ++ b) := by
  have hle := Lib.indexOf_le CRLFCRLF_ne_nil h
  rw [length_CRLFCRLF] at hle
  rw [readMessage, indexOf_append CRLFCRLF_ne_nil h, Option.map_some,
    List.take_append_of_le_length (by omega), List.drop_append_of_le_length hle]

/-- A header block without a blank line but its end is read as its lines, and the
bytes behind it are the body. -/
theorem readMessage_of_end (h : indexOf CRLFCRLF (a ++ CRLFCRLF) = some a.length) (b : Bytes) :
    readMessage (a ++ CRLFCRLF ++ b) = some (a, b) := by
  rw [readMessage_of_blank h, List.take_left, List.drop_of_length_le, List.nil_append]
  rw [List.length_append]
  rfl

/-- A blank line with nothing behind it is the end of the text.  So the header
block is its lines, and the blank line. -/
theorem take_append_of_last (h : indexOf CRLFCRLF a = some i) (hlast : i + 4 = a.length) :
    a.take i ++ CRLFCRLF = a := by
  obtain ⟨t, ht⟩ := ((indexOf_eq_some CRLFCRLF_ne_nil).1 h).1
  have hnil : t = [] := by
    have hlen := congrArg List.length ht
    rw [List.length_append, List.length_drop, length_CRLFCRLF] at hlen
    exact List.length_eq_zero_iff.1 (by omega)
  rw [hnil, List.append_nil] at ht
  rw [ht, List.take_append_drop]

/-- What is announced in front of the first blank line is compared with all
bytes behind it. -/
theorem announces_iff_take (h : indexOf CRLFCRLF a = some i) {b : Bytes} :
    (∃ lines rest, readMessage (a ++ b) = some (lines, rest) ∧ AnnouncesOnce lines rest.length) ↔
      AnnouncesOnce (a.take i) (a.length + b.length - (i + 4)) := by
  have hle := Lib.indexOf_le CRLFCRLF_ne_nil h
  rw [length_CRLFCRLF] at hle
  have hlen : (a.drop (i + 4) ++ b).length = a.length + b.length - (i + 4) := by
    rw [List.length_append, List.length_drop]
    omega
  rw [readMessage_of_blank h, ← hlen]
  constructor
  · rintro ⟨_, _, he, hn⟩
    obtain ⟨rfl, rfl⟩ := Prod.mk.inj (Option.some.inj he)
    exact hn
  · exact fun hn => ⟨_, _, rfl, hn⟩

/-- Lines without a blank one are skipped: the first blank line starts at their
last end at the earliest. -/
theorem indexOf_behind_lines (hfront : indexOf CRLFCRLF (front ++ [13, 10]) = none)
    (rest : Bytes) :
    indexOf CRLFCRLF (front ++ ([13, 10] ++ rest)) =
      (indexOf CRLFCRLF ([13, 10] ++ rest)).map (front.length + ·) := by
  refine indexOf_append_of_skip CRLFCRLF_ne_nil fun j hj hpre => ?_
  have hlen : (front ++ [13, 10]).length = front.length + 2 := by
    rw [List.length_append]
    rfl
  rw [← List.append_assoc] at hpre
  rcases Nat.lt_or_ge (front.length + 2) (j + 4) with hlast | hinside
  · -- it starts at the last byte of the lines and would have the CR of their end for its LF
    have hbyte : (front ++ ([13, 10] ++ rest))[j + 1]? = some 10 := by
      obtain ⟨t, ht⟩ := hpre
      rw [← List.append_assoc, ← List.getElem?_drop, ← ht]
      rfl
    rw [show j + 1 = front.length by omega, List.getElem?_append_right le_rfl,
      Nat.sub_self] at hbyte
    exact absurd hbyte (by simp)
  · refine (indexOf_eq_none CRLFCRLF_ne_nil).1 hfront j ?_
    exact (Lib.prefix_drop_append (by rw [length_CRLFCRLF, hlen]; exact hinside)).1 hpre

/-- **A line cannot hide a blank line.**  Behind lines without a blank one, and
a line that holds no CR, the first blank line is the first one of the rest. -/
theorem indexOf_behind_line (hfront : indexOf CRLFCRLF (front ++ [13, 10]) = none)
    (hline : 13 ∉ line) (hne : line ≠ []) (rest : Bytes) :
    indexOf CRLFCRLF (front ++ [13, 10] ++ line ++ rest) =
      (indexOf CRLFCRLF rest).map ((front ++ [13, 10] ++ line).length + ·) := by
  have hskip : indexOf CRLFCRLF (([13, 10] ++ line) ++ rest) =
      (indexOf CRLFCRLF rest).map (([13, 10] ++ line).length + ·) := by
    refine indexOf_append_of_skip CRLFCRLF_ne_nil fun j hj hpre => ?_
    obtain ⟨t, ht⟩ := hpre
    have hbyte : ∀ k, (13 :: 10 :: (line ++ rest))[j + k]? = (CRLFCRLF ++ t)[k]? := fun k => by
      rw [ht, List.getElem?_drop]
      rfl
    obtain ⟨c, l, rfl⟩ := List.exists_cons_of_ne_nil hne
    rcases j with _ | _ | j
    · have h := hbyte 2
      obtain rfl : c = 13 := Option.some.inj h
      exact hline (List.mem_cons_self ..)
    · exact absurd (hbyte 0) (by simp [CRLFCRLF])
    · have h := hbyte 0
      have hj' : j < (c :: l).length := by simpa using hj
      rw [Nat.add_zero, List.getElem?_cons_succ, List.getElem?_cons_succ,
        List.getElem?_append_left hj'] at h
      exact hline (List.mem_of_getElem? h)
  have hassoc : front ++ [13, 10] ++ line ++ rest = front ++ ([13, 10] ++ (line ++ rest)) := by
    simp only [List.append_assoc]
  rw [hassoc, indexOf_behind_lines hfront _, ← List.append_assoc, hskip, Option.map_map]
  congr 1
  funext k
  simp only [Function.comp_apply, List.length_append]
  omega

/-- Behind lines without a blank one the end of the header block is its blank
line. -/
theorem indexOf_end (hfront : indexOf CRLFCRLF (front ++ [13, 10]) = none) :
    indexOf CRLFCRLF (front ++ CRLFCRLF) = some front.length :=
  indexOf_behind_lines hfront [13, 10]

/-! ### What the lines announce -/

/-- What lines announce is what each of them does, in their order. -/
theorem lengthValues_append (a b : Bytes) :
    lengthValues (a ++ 13 :: 10 :: b) = lengthValues a ++ lengthValues b := by
  rw [lengthValues, crlfLines_append, List.filterMap_append]
  rfl

/-- The end of a line announces nothing. -/
theorem lengthValues_crlf (a : Bytes) : lengthValues (a ++ [13, 10]) = lengthValues a := by
  rw [lengthValues_append]
  exact List.append_nil _

/-- The blank line itself announces nothing: it is two ends of lines. -/
theorem lengthValues_end (a : Bytes) : lengthValues (a ++ CRLFCRLF) = lengthValues a := by
  rw [show CRLFCRLF = [13, 10] ++ [13, 10] from rfl, ← List.append_assoc, lengthValues_crlf,
    lengthValues_crlf]

/-- A value is a number in one way at most: its digits are what is left of it
without the blanks. -/
theorem DecimalValue.unique {v : Bytes} {m n : ℕ} (hm : DecimalValue v m) (hn : DecimalValue v n) :
    m = n := by
  have hdigits : ∀ {k}, DecimalValue v k → Numeral (v.filter Lib.isdigit) k := by
    rintro k ⟨before, ds, after, rfl, hblank, hds⟩
    have hnone : ∀ l : Bytes, (∀ c ∈ l, c = 32 ∨ c = 9) → l.filter Lib.isdigit = [] := by
      intro l hl
      refine List.filter_eq_nil_iff.2 fun c hc => ?_
      rcases hl c hc with rfl | rfl <;> decide
    rw [List.filter_append, List.filter_append,
      hnone before fun c hc => hblank c (List.mem_append_left _ hc),
      hnone after fun c hc => hblank c (List.mem_append_right _ hc),
      List.filter_eq_self.2 hds.2.1, List.nil_append, List.append_nil]
    exact hds
  exact (hdigits hm).unique (hdigits hn)

/-- The value that `sprintf` has written behind a blank is that number, and no
other one; a number below 0 is none at all. -/
theorem decimalValue_sprintfD_iff {z : ℤ} {n : ℕ} : DecimalValue (32 :: sprintfD z) n ↔ z = n := by
  constructor
  · rintro ⟨before, ds, after, hv, hblank, hds⟩
    by_cases hz : z < 0
    · -- the sign is neither a blank nor a digit
      have hsign : (45 : UInt8) ∈ before ++ ds ++ after := by
        rw [← hv, sprintfD, if_pos hz]
        simp
      rw [List.append_assoc, List.mem_append, List.mem_append] at hsign
      rcases hsign with hmem | hmem | hmem
      · exact absurd (hblank 45 (List.mem_append_left _ hmem)) (by decide)
      · exact absurd (hds.2.1 45 hmem) (by decide)
      · exact absurd (hblank 45 (List.mem_append_right _ hmem)) (by decide)
    · obtain ⟨m, rfl⟩ := Int.eq_ofNat_of_zero_le (not_lt.1 hz)
      have hm : DecimalValue (32 :: sprintfD m) m :=
        ⟨[32], sprintfD m, [], by simp, by simp, Lib.numeral_sprintfD m⟩
      rw [hm.unique ⟨before, ds, after, hv, hblank, hds⟩]
  · rintro rfl
    exact ⟨[32], sprintfD n, [], by simp, by simp, Lib.numeral_sprintfD n⟩

/-- A colon is the small letter of nothing else.  So comparing without regard to
case finds the colon behind a name where it stands. -/
theorem tolower_eq_colon {c : UInt8} (h : tolower c = 58) : c = 58 := by
  rw [tolower] at h
  split_ifs at h with hc
  · rw [Bool.and_eq_true, decide_eq_true_eq, decide_eq_true_eq, UInt8.le_iff_toNat_le,
      UInt8.le_iff_toNat_le] at hc
    have hn := congrArg UInt8.toNat h
    rw [UInt8.toNat_add] at hn
    simp at hc hn
    omega
  · exact h

/-- Where a text is cut at its first colon does not depend on what follows. -/
theorem takeWhile_colon {a b : Bytes} (h : 58 ∉ a) : (a ++ 58 :: b).takeWhile (· != 58) = a := by
  rw [List.takeWhile_append_of_pos, List.takeWhile_cons_of_neg (by decide), List.append_nil]
  intro c hc
  rw [bne_iff_ne]
  rintro rfl
  exact h hc

/-- A line has the name that stands before its first colon, in whatever case its
letters are. -/
theorem contentLengthValue_line {t : Bytes} (hcolon : 58 ∉ k) :
    contentLengthValue (k ++ 58 :: t) =
      if k.map tolower = ascii "content-length" then some t else none := by
  have hname : ((k ++ 58 :: t).take 15).map tolower = ascii "content-length:" ↔
      k.map tolower = ascii "content-length" := by
    constructor
    · intro h
      have hsplit : k.map tolower ++ 58 :: t.map tolower =
          ascii "content-length" ++ 58 :: ((k ++ 58 :: t).drop 15).map tolower := by
        calc k.map tolower ++ 58 :: t.map tolower
            = (k ++ 58 :: t).map tolower := by rw [List.map_append, List.map_cons]; rfl
          _ = ((k ++ 58 :: t).take 15).map tolower ++ ((k ++ 58 :: t).drop 15).map tolower := by
            rw [← List.map_append, List.take_append_drop]
          _ = _ := by rw [h]; rfl
      have hk : 58 ∉ k.map tolower := fun hmem => by
        obtain ⟨c, hc, hc58⟩ := List.mem_map.1 hmem
        exact hcolon (tolower_eq_colon hc58 ▸ hc)
      have htake := congrArg (List.takeWhile (· != 58)) hsplit
      rwa [takeWhile_colon hk, takeWhile_colon (by decide)] at htake
    · intro h
      have hlen : k.length = 14 := by
        rw [← List.length_map tolower, h]
        rfl
      have htake : (k ++ 58 :: t).take 15 = k ++ [58] := by
        rw [List.take_append, hlen, List.take_of_length_le (by omega)]
        rfl
      rw [htake, List.map_append, h]
      rfl
  rw [contentLengthValue]
  by_cases h : k.map tolower = ascii "content-length"
  · have hlen : k.length = 14 := by
      rw [← List.length_map tolower, h]
      rfl
    rw [if_pos (hname.2 h), if_pos h, List.drop_append, hlen, List.drop_of_length_le (by omega)]
    rfl
  · rw [if_neg fun hn => h (hname.1 hn), if_neg h]

/-- What an entry announces is its value, if its key is the name in capital or
small letters and neither holds CR. -/
theorem entryLengths_of_line (hk : 13 ∉ k) (hcolon : 58 ∉ k) (hv : 13 ∉ v) :
    entryLengths (k, some v) =
      if k.map tolower = ascii "content-length" then [32 :: v] else [] := by
  have hline : k ++ ascii ": " ++ v = k ++ 58 :: 32 :: v := by
    rw [List.append_assoc]
    rfl
  have hcr : 13 ∉ k ++ 58 :: 32 :: v := by simp [hk, hv]
  rw [entryLengths]
  simp only [hline]
  rw [lengthValues, crlfLines_of_not_mem hcr, List.filterMap_cons, contentLengthValue_line hcolon]
  by_cases hname : k.map tolower = ascii "content-length"
  · have hhead : k.head? ≠ some 32 := fun hhead => by
      have hmap := congrArg List.head? hname
      rw [List.head?_map, hhead] at hmap
      exact absurd hmap (by decide)
    rw [if_neg hhead, if_pos hname, if_pos hname]
    rfl
  · rw [if_neg hname, if_neg hname]
    split_ifs <;> rfl

/-- **Each entry announces for itself**, whatever stands behind the lines: every
line of an entry ends with CRLF, and its value may be more lines. -/
theorem lengthValues_headerLines (c : ℕ) (l : List (Bytes × Option Bytes)) (rest : Bytes) :
    lengthValues (headerLines ⟨c, l⟩ ++ rest) = l.flatMap entryLengths ++ lengthValues rest := by
  induction l with
  | nil => rfl
  | cons p l ih =>
    obtain ⟨k, v⟩ := p
    rw [List.flatMap_cons, List.append_assoc, ← ih, entryLengths]
    cases v with
    | none => rw [headerLines_skip (.inl rfl), List.nil_append]
    | some v =>
      by_cases hk : k.head? = some 32
      · simp only [if_pos hk]
        rw [headerLines_skip (.inr hk), List.nil_append]
      · simp only [if_neg hk]
        rw [headerLines_line hk, List.append_assoc, List.cons_append, List.cons_append,
          lengthValues_append]

/-- The line of a length is one line. -/
theorem cr_notMem_lengthLine {v : Bytes} (hv : 13 ∉ v) :
    13 ∉ ascii "Content-Length" ++ 58 :: 32 :: v := by
  rw [List.mem_append]
  simp [hv, ascii]

/-- The line of a length announces it. -/
theorem lengthValues_lengthLine {v : Bytes} (hv : 13 ∉ v) :
    lengthValues (ascii "Content-Length" ++ 58 :: 32 :: v) = [32 :: v] := by
  rw [lengthValues, crlfLines_of_not_mem (cr_notMem_lengthLine hv), List.filterMap_cons,
    contentLengthValue_line (by decide), if_pos (by decide)]
  rfl

/-- **A line in front of the first blank one is read**, with what stands before
it: without CR it does not end the header block itself. -/
theorem lengthValues_take_of_line (hfront : indexOf CRLFCRLF (front ++ [13, 10]) = none)
    (hline : 13 ∉ line) (hne : line ≠ [])
    (h : indexOf CRLFCRLF (front ++ [13, 10] ++ line ++ 13 :: 10 :: rest) = some i) :
    ∃ vs, lengthValues ((front ++ [13, 10] ++ line ++ 13 :: 10 :: rest).take i) =
      lengthValues front ++ lengthValues line ++ vs := by
  rw [indexOf_behind_line hfront hline hne _, Option.map_eq_some_iff] at h
  obtain ⟨j, hj, rfl⟩ := h
  have hread : ∀ t, lengthValues (front ++ [13, 10] ++ line ++ 13 :: 10 :: t) =
      lengthValues front ++ lengthValues line ++ lengthValues t := fun t => by
    rw [lengthValues_append, List.append_assoc, List.cons_append, List.singleton_append,
      lengthValues_append]
  rw [List.take_append, Nat.add_sub_cancel_left,
    List.take_of_length_le (Nat.le_add_right ..)]
  obtain ⟨hpre, -⟩ := (indexOf_eq_some CRLFCRLF_ne_nil).1 hj
  rcases j with _ | _ | j
  · refine ⟨[], ?_⟩
    rw [List.take_zero, List.append_nil, List.append_nil, List.append_assoc, List.cons_append,
      List.singleton_append, lengthValues_append]
  · -- the second byte is LF
    obtain ⟨t, ht⟩ := hpre
    cases ht
  · exact ⟨_, hread (rest.take j)⟩

/-- Lines end with CRLF.  With none at all, the CRLF is the one before them. -/
theorem headerLines_end (c : ℕ) (l : List (Bytes × Option Bytes)) :
    ∃ f, 13 :: 10 :: headerLines ⟨c, l⟩ = f ++ [13, 10] := by
  induction l with
  | nil => exact ⟨[], rfl⟩
  | cons p l ih =>
    obtain ⟨k, _ | v⟩ := p
    · rwa [headerLines_skip (.inl rfl)]
    by_cases hk : k.head? = some 32
    · rwa [headerLines_skip (.inr hk)]
    · obtain ⟨f, hf⟩ := ih
      rw [headerLines_line hk, hf]
      exact ⟨13 :: 10 :: (k ++ ascii ": " ++ v) ++ f, by simp⟩

end Reading

end Http
end Dukserver
