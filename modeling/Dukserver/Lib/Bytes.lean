/-
# Bytes, C strings and searches

A piece of memory is a list of bytes.  `byteAt` reads it at an index, and `0`
past its end; `cstr` is what the string functions of C see of it.  A scan for a
byte or for a pattern returns the first place there is, so every one of them is
`List.find?` over a range of positions, and its specification is the core lemma
about that.

`indexOf` is the first occurrence of a pattern in a list.  An occurrence in a
prefix of a stream is one in the stream, and the first one in the stream is in
every prefix that is long enough (`indexOf_append`, `indexOf_take`): this is why
it does not matter where a stream is cut when it is scanned for a delimiter.
-/

import Mathlib.Data.Int.Basic
import Mathlib.Data.List.Infix
import Mathlib.Data.List.TakeWhile
import Mathlib.Tactic.Linarith

namespace Dukserver
namespace Lib

/-- A piece of memory, a string or a part of a stream. -/
abbrev Bytes := List UInt8

/-- The bytes of a literal. -/
def ascii (s : String) : Bytes := s.toList.map fun c => c.toNat.toUInt8

/-- The byte at index `i`. -/
def byteAt (mem : Bytes) (i : ℕ) : UInt8 := mem.getD i 0

/-- The string that starts here: everything before the first NUL. -/
def cstr (mem : Bytes) : Bytes := mem.takeWhile (· != 0)

/-- The bytes at the indices `s` to `e - 1`. -/
def slice (mem : Bytes) (s e : ℕ) : Bytes := (mem.drop s).take (e - s)

def isalpha (c : UInt8) : Bool := (65 ≤ c && c ≤ 90) || (97 ≤ c && c ≤ 122)

def isdigit (c : UInt8) : Bool := 48 ≤ c && c ≤ 57

def isspace (c : UInt8) : Bool := (9 ≤ c && c ≤ 13) || c == 32

/-! ### Integers in decimal -/

/-- A value stored in an `int`. -/
def toInt32 (z : ℤ) : ℤ := z.bmod (2 ^ 32)

/-- An `int` holds what is in its range: the balanced remainder of a number that
is small already. -/
theorem toInt32_of_bounds {z : ℤ} (h₁ : -(2 ^ 31) ≤ z) (h₂ : z < 2 ^ 31) : toInt32 z = z := by
  unfold toInt32
  rw [Int.bmod_eq_iff (by norm_num)]
  refine ⟨by omega, by omega, by simp⟩

/-- Whatever is stored, an `int` is below `2 ^ 31`. -/
theorem toInt32_lt (z : ℤ) : toInt32 z < 2 ^ 31 := by
  have h := Int.bmod_lt (x := z) (m := 2 ^ 32) (by norm_num)
  unfold toInt32
  omega

/-- The value of a list of digits. -/
def decimalValue (ds : Bytes) : ℕ := ds.foldl (fun n d => 10 * n + (d.toNat - 48)) 0

/-- `atoi`: `strtol` clamped to a 64-bit `long`, then truncated to an `int`. -/
def atoi (s : Bytes) : ℤ :=
  let t := s.dropWhile isspace
  let negative := t.head? == some 45
  let t := if t.head? == some 45 || t.head? == some 43 then t.tail else t
  let n := (decimalValue (t.takeWhile isdigit) : ℤ)
  toInt32 (if negative then max (-(2 ^ 63)) (-n) else min (2 ^ 63 - 1) n)

/-- A number written in digits only. -/
def Numeral (v : Bytes) (n : ℕ) : Prop :=
  v ≠ [] ∧ (∀ c ∈ v, isdigit c = true) ∧ decimalValue v = n

/-- The digits of ASCII stand together, from 48 to 57. -/
theorem isdigit_iff {c : UInt8} : isdigit c = true ↔ 48 ≤ c.toNat ∧ c.toNat ≤ 57 := by
  simp [isdigit, UInt8.le_iff_toNat_le]

/-- The value of a numeral as `atoi` computes it: `strtol` clamps it to a
`long`, and the conversion to an `int` truncates that. -/
theorem atoi_numeral {v : Bytes} {n : ℕ} (h : Numeral v n) :
    atoi v = toInt32 (min (2 ^ 63 - 1) n) := by
  obtain ⟨hne, hd, hval⟩ := h
  obtain ⟨c, t, rfl⟩ := List.exists_cons_of_ne_nil hne
  have hc := isdigit_iff.1 (hd c (List.mem_cons_self ..))
  have hspace : isspace c = false := by
    simp only [isspace, Bool.or_eq_false_iff, Bool.and_eq_false_iff, beq_eq_false_iff_ne,
      decide_eq_false_iff_not, UInt8.le_iff_toNat_le]
    exact ⟨.inr (by simp; omega), fun h => by rw [h] at hc; simp at hc⟩
  have h45 : c ≠ 45 := fun h => by rw [h] at hc; simp at hc
  have h43 : c ≠ 43 := fun h => by rw [h] at hc; simp at hc
  have hdrop : (c :: t).dropWhile isspace = c :: t := by
    rw [List.dropWhile_cons_of_neg (by rw [hspace]; exact Bool.false_ne_true)]
  have htake : (c :: t).takeWhile isdigit = c :: t := List.takeWhile_eq_self_iff.2 hd
  simp only [atoi, hdrop, List.head?_cons, Option.some_beq_some, beq_eq_false_iff_ne.2 h45,
    beq_eq_false_iff_ne.2 h43, Bool.or_self, Bool.false_eq_true, if_false, htake, hval]

/-- **`atoi` of a numeral that fits an `int` is its value**: neither the clamp
nor the truncation has anything to do. -/
theorem atoi_of_numeral {v : Bytes} {n : ℕ} (h : Numeral v n) (hn : n < 2 ^ 31) : atoi v = n := by
  rw [atoi_numeral h, min_eq_right (by omega), toInt32_of_bounds (by omega) (by omega)]

/-- **`atoi` of a numeral is its value exactly if that fits an `int`.**  A
greater value is not hit by chance: what is truncated is below `2 ^ 31`. -/
theorem atoi_eq_iff {v : Bytes} {n : ℕ} (h : Numeral v n) : atoi v = n ↔ n < 2 ^ 31 := by
  refine ⟨fun he => ?_, atoi_of_numeral h⟩
  have hlt := toInt32_lt (min (2 ^ 63 - 1) n)
  rw [← atoi_numeral h, he] at hlt
  omega

/-- `atoi` of a numeral is never larger than its value, as clamping and
truncation only take away. -/
theorem atoi_le {v : Bytes} {n : ℕ} (h : Numeral v n) : atoi v ≤ n := by
  by_cases hn : n < 2 ^ 31
  · exact (atoi_of_numeral h hn).le
  · have hlt := toInt32_lt (min (2 ^ 63 - 1) n)
    rw [← atoi_numeral h] at hlt
    omega

/-- The digit of a number below 10. -/
def digit (n : ℕ) : UInt8 := UInt8.ofNat (48 + n % 10)

/-- The digits of `n`, for a bound on their number. -/
def digits : ℕ → ℕ → Bytes
  | 0, _ => []
  | fuel + 1, n => if n < 10 then [digit n] else digits fuel (n / 10) ++ [digit n]

/-- `sprintf` with `%d`. -/
def sprintfD (z : ℤ) : Bytes :=
  (if z < 0 then [45] else []) ++ digits (z.natAbs + 1) z.natAbs

/-- A digit is 48 and its value, which does not wrap round in a byte. -/
theorem toNat_digit (n : ℕ) : (digit n).toNat = 48 + n % 10 := by
  rw [digit, UInt8.toNat_ofNat']
  omega

/-- What `digit` writes is a digit. -/
theorem isdigit_digit (n : ℕ) : isdigit (digit n) = true := by
  rw [isdigit_iff, toNat_digit]
  omega

/-- Another digit at the end multiplies by ten what is in front, as in the loop
that reads it. -/
theorem decimalValue_concat (ds : Bytes) (d : UInt8) :
    decimalValue (ds ++ [d]) = 10 * decimalValue ds + (d.toNat - 48) := by
  rw [decimalValue, List.foldl_append]
  rfl

/-- **The digits of a number are a numeral for it.**  The last digit is its
remainder by ten, and those before it are the digits of the quotient, by the
induction on the fuel. -/
theorem numeral_digits {fuel n : ℕ} (h : n < fuel) : Numeral (digits fuel n) n := by
  induction fuel generalizing n with
  | zero => omega
  | succ fuel ih =>
    rw [digits]
    split_ifs with hn
    · refine ⟨by simp, fun c hc => ?_, ?_⟩
      · rw [List.mem_singleton.1 hc]
        exact isdigit_digit n
      · have := decimalValue_concat [] (digit n)
        rw [List.nil_append] at this
        rw [this, toNat_digit]
        simp only [decimalValue, List.foldl_nil]
        omega
    · obtain ⟨-, hdigits, hval⟩ := ih (n := n / 10) (by omega)
      refine ⟨by simp, fun c hc => ?_, ?_⟩
      · rcases List.mem_append.1 hc with hc | hc
        · exact hdigits c hc
        · rw [List.mem_singleton.1 hc]
          exact isdigit_digit n
      · rw [decimalValue_concat, hval, toNat_digit]
        omega

/-- What `sprintf` writes for a number that is not negative is a numeral for it,
as no sign is written and the fuel is more than the number has digits. -/
theorem numeral_sprintfD (n : ℕ) : Numeral (sprintfD n) n := by
  rw [sprintfD, if_neg (by omega), List.nil_append, Int.natAbs_natCast]
  exact numeral_digits (Nat.lt_succ_self n)

/-- **`atoi` reads what `sprintf` has written**, for a number that is not
negative: a length that is announced is the length that is read. -/
theorem atoi_sprintfD {n : ℕ} (hn : n < 2 ^ 31) : atoi (sprintfD n) = n :=
  atoi_of_numeral (numeral_sprintfD n) hn

/-- A string without a NUL is a C string: nothing of it is behind its end. -/
theorem cstr_of_not_mem {mem : Bytes} (h : 0 ∉ mem) : cstr mem = mem := by
  rw [cstr, List.takeWhile_eq_self_iff]
  intro c hc
  rw [bne_iff_ne]
  rintro rfl
  exact h hc

/-- Text without a NUL is seen whole, and the string goes on behind it. -/
theorem cstr_append_of_not_mem {text : Bytes} (tail : Bytes) (h : 0 ∉ text) :
    cstr (text ++ tail) = text ++ cstr tail := by
  have hall := List.takeWhile_eq_self_iff.1 (cstr_of_not_mem h)
  rw [cstr, List.takeWhile_append_of_pos hall, cstr]

/-- Text with a NUL ends there, so what stands behind it in memory is not seen. -/
theorem cstr_append_of_mem {text : Bytes} (tail : Bytes) (h : 0 ∈ text) :
    cstr (text ++ tail) = cstr text := by
  rw [cstr, List.takeWhile_append, if_neg, cstr]
  intro hlen
  have hall := List.takeWhile_eq_self_iff.1 ((List.takeWhile_prefix _).eq_of_length hlen)
  exact absurd (hall 0 h) (by decide)

/-- Past its end a text reads as NUL.  This is the terminator that each C string
has there, and no read beyond that is made. -/
theorem byteAt_eq_zero {mem : Bytes} {i : ℕ} (h : mem.length ≤ i) : byteAt mem i = 0 := by
  rw [byteAt, List.getD_eq_getElem?_getD, List.getElem?_eq_none h, Option.getD_none]

/-- A byte that is read inside of a text is one of it. -/
theorem byteAt_mem {text : Bytes} {i : ℕ} (hi : i < text.length) : byteAt text i ∈ text := by
  rw [byteAt, List.getD_eq_getElem?_getD, List.getElem?_eq_getElem hi]
  exact List.getElem_mem hi

/-- Inside of a text without a NUL no read finds the end. -/
theorem byteAt_ne_zero {text : Bytes} {i : ℕ} (h : 0 ∉ text) (hi : i < text.length) :
    byteAt text i ≠ 0 := fun hzero => h (hzero ▸ byteAt_mem hi)

/-- Two texts one behind the other are read as one of them, by the index. -/
theorem byteAt_append (v w : Bytes) (i : ℕ) :
    byteAt (v ++ w) i = if i < v.length then byteAt v i else byteAt w (i - v.length) := by
  unfold byteAt
  rw [List.getD_eq_getElem?_getD, List.getElem?_append]
  split_ifs with h <;> rw [List.getD_eq_getElem?_getD]

/-- The last byte is the one at the length less one, as the loops that scan from
the end read it. -/
theorem byteAt_concat (init : Bytes) (c : UInt8) :
    byteAt (init ++ [c]) ((init ++ [c]).length - 1) = c := by
  rw [List.length_append, List.length_singleton, Nat.add_sub_cancel, byteAt_append,
    if_neg (lt_irrefl _), Nat.sub_self]
  rfl

/-- The string in memory is `text` exactly if its bytes are there and a NUL
behind them: a comparison byte by byte, which is how `strcmp` does it. -/
theorem cstr_eq_iff {mem text : Bytes} (h : 0 ∉ text) :
    cstr mem = text ↔ ∀ i ≤ text.length, byteAt mem i = byteAt text i := by
  induction text generalizing mem with
  | nil =>
    simp only [List.length_nil, Nat.le_zero, forall_eq]
    rcases mem with _ | ⟨c, mem⟩
    · exact iff_of_true rfl rfl
    · by_cases hc : c = 0
      · rw [hc]
        exact iff_of_true rfl rfl
      · rw [cstr, List.takeWhile_cons_of_pos (by simpa using hc)]
        exact iff_of_false (List.cons_ne_nil _ _) hc
  | cons c text ih =>
    rw [List.mem_cons, not_or] at h
    have hbytes : (∀ i ≤ (c :: text).length, byteAt mem i = byteAt (c :: text) i) ↔
        byteAt mem 0 = c ∧ ∀ i ≤ text.length, byteAt mem.tail i = byteAt text i := by
      have htail : ∀ i, byteAt mem.tail i = byteAt mem (i + 1) := fun i => by
        cases mem <;> rfl
      constructor
      · intro hall
        refine ⟨hall 0 (Nat.zero_le _), fun i hi => ?_⟩
        rw [htail]
        exact hall (i + 1) (Nat.succ_le_succ hi)
      · rintro ⟨hzero, hall⟩ (_ | i) hi
        · exact hzero
        · rw [← htail]
          exact hall i (Nat.le_of_succ_le_succ hi)
    rw [hbytes, ← ih h.2]
    rcases mem with _ | ⟨d, mem⟩
    · exact iff_of_false (fun he => by cases he) fun he => h.1 he.1
    · by_cases hd : d = 0
      · rw [hd]
        exact iff_of_false (fun he => by cases he) fun he => h.1 he.1
      · rw [cstr, List.takeWhile_cons_of_pos (by simpa using hd)]
        exact List.cons_eq_cons

/-- A numeral is a C string, as no digit is NUL. -/
theorem cstr_of_numeral {v : Bytes} {n : ℕ} (h : Numeral v n) : cstr v = v :=
  cstr_of_not_mem fun hmem => absurd (isdigit_iff.1 (h.2.1 0 hmem)).1 (by decide)

/-- A text is a numeral for one number at most, as the number is computed from
the text. -/
theorem Numeral.unique {v : Bytes} {m n : ℕ} (hm : Numeral v m) (hn : Numeral v n) : m = n :=
  hm.2.2.symm.trans hn.2.2

/-- What `sprintf` writes are digits, behind a sign or not.  So no byte that has
a meaning in a header, such as CR or NUL, is among them. -/
theorem mem_sprintfD {z : ℤ} {c : UInt8} (h : c ∈ sprintfD z) : c = 45 ∨ isdigit c = true := by
  rw [sprintfD, List.mem_append] at h
  rcases h with h | h
  · split_ifs at h
    · exact .inl (List.mem_singleton.1 h)
    · cases h
  · exact .inr ((numeral_digits (Nat.lt_succ_self z.natAbs)).2.1 c h)

/-- A number that is written does not end the line it is written to. -/
theorem cr_notMem_sprintfD (z : ℤ) : 13 ∉ sprintfD z := fun h =>
  (mem_sprintfD h).elim (by decide) (by decide)

/-- A number that is written does not end the string it is written to. -/
theorem cstr_sprintfD (z : ℤ) : cstr (sprintfD z) = sprintfD z :=
  cstr_of_not_mem fun h => (mem_sprintfD h).elim (by decide) (by decide)

/-- **What `sprintf` writes is a numeral for that number** and for no other one.
A negative number is written with a sign, which no numeral has. -/
theorem numeral_sprintfD_iff {z : ℤ} {n : ℕ} : Numeral (cstr (sprintfD z)) n ↔ z = n := by
  constructor
  · intro h
    by_cases hz : z < 0
    · have hhead : (45 : UInt8) ∈ cstr (sprintfD z) := by
        rw [sprintfD, if_pos hz, List.singleton_append, cstr,
          List.takeWhile_cons_of_pos (by decide)]
        exact List.mem_cons_self ..
      exact absurd (h.2.1 45 hhead) (by decide)
    · obtain ⟨m, rfl⟩ := Int.eq_ofNat_of_zero_le (not_lt.1 hz)
      rw [cstr_of_numeral (numeral_sprintfD m)] at h
      rw [(numeral_sprintfD m).unique h]
  · rintro rfl
    rw [cstr_of_numeral (numeral_sprintfD n)]
    exact numeral_sprintfD n

/-- A length is stored in an `int` as it is below `2 ^ 31` only; from there on
it is another number. -/
theorem toInt32_natCast {n : ℕ} : toInt32 n = n ↔ n < 2 ^ 31 := by
  constructor
  · intro h
    have hlt := toInt32_lt n
    omega
  · intro h
    exact toInt32_of_bounds (by omega) (by omega)

/-! ### Lines -/

/-- Put a byte in front of the first line. -/
def consLine (c : UInt8) : List Bytes → List Bytes
  | [] => [[c]]
  | l :: ls => (c :: l) :: ls

/-- The lines of a text, which is cut at each CRLF. -/
def crlfLines : Bytes → List Bytes
  | [] => [[]]
  | [c] => [[c]]
  | c :: d :: t =>
    if c = 13 ∧ d = 10 then [] :: crlfLines t else consLine c (crlfLines (d :: t))

/-- Every text has a line, if only the empty one. -/
theorem crlfLines_ne_nil (t : Bytes) : crlfLines t ≠ [] := by
  fun_cases crlfLines t with
  | case1 | case2 | case3 => exact List.cons_ne_nil _ _
  | case4 c d t => cases crlfLines (d :: t) <;> exact List.cons_ne_nil _ _

/-- A byte in front goes to the first line, which is that of the first list if
this is not empty. -/
theorem consLine_append {c : UInt8} {ls ms : List Bytes} (h : ls ≠ []) :
    consLine c (ls ++ ms) = consLine c ls ++ ms := by
  cases ls with
  | nil => exact absurd rfl h
  | cons l ls => rfl

/-- **A CRLF ends a line**, whatever is before and behind it: the text before it
cannot take its LF for an end of its own, since a CR must stand in front of
that. -/
theorem crlfLines_append (a b : Bytes) :
    crlfLines (a ++ 13 :: 10 :: b) = crlfLines a ++ crlfLines b := by
  fun_induction crlfLines a with
  | case1 => rw [List.nil_append, crlfLines, if_pos ⟨rfl, rfl⟩, List.singleton_append]
  | case2 c =>
    rw [List.singleton_append, crlfLines, if_neg fun h => absurd h.2 (by decide), crlfLines,
      if_pos ⟨rfl, rfl⟩]
    rfl
  | case3 c d t h ih =>
    rw [List.cons_append, List.cons_append, crlfLines, if_pos h, ih, List.cons_append]
  | case4 c d t h ih =>
    rw [List.cons_append, List.cons_append, crlfLines, if_neg h, ← List.cons_append, ih,
      consLine_append (crlfLines_ne_nil _)]

/-- The lines with their ends are the text and one more end, so no byte is lost
by cutting. -/
theorem flatten_crlfLines (t : Bytes) :
    ((crlfLines t).map fun l => l ++ [13, 10]).flatten = t ++ [13, 10] := by
  have hcons : ∀ c ls, ls ≠ [] → ((consLine c ls).map fun l => l ++ [13, 10]).flatten =
      c :: (ls.map fun l => l ++ [13, 10]).flatten := by
    intro c ls hls
    cases ls with
    | nil => exact absurd rfl hls
    | cons l ls => rfl
  fun_induction crlfLines t with
  | case1 | case2 => rfl
  | case3 c d t h ih =>
    rw [List.map_cons, List.flatten_cons, ih, h.1, h.2]
    rfl
  | case4 c d t h ih => rw [hcons _ _ (crlfLines_ne_nil _), ih]; rfl

/-- The first line is at the start of the text: it is what stands in front of
the first CRLF. -/
theorem headD_crlfLines_prefix (t : Bytes) : (crlfLines t).headD [] <+: t := by
  fun_induction crlfLines t with
  | case1 | case2 => exact List.prefix_rfl
  | case3 => exact List.nil_prefix
  | case4 c d t h ih =>
    have hne := crlfLines_ne_nil (d :: t)
    generalize crlfLines (d :: t) = ls at hne ih
    cases ls with
    | nil => exact absurd rfl hne
    | cons l ls => exact List.cons_prefix_cons.2 ⟨rfl, ih⟩

/-- **No line has a CRLF in it**, as each is cut at the first one there is, and
what comes behind is cut again. -/
theorem not_infix_of_mem_crlfLines {t l : Bytes} (h : l ∈ crlfLines t) : ¬[13, 10] <:+: l := by
  fun_induction crlfLines t generalizing l with
  | case1 =>
    rw [List.mem_singleton.1 h]
    exact fun hin => absurd hin.length_le (by decide)
  | case2 c =>
    rw [List.mem_singleton.1 h]
    exact fun hin => absurd hin.length_le (Nat.not_succ_le_self 1)
  | case3 c d t hcrlf ih =>
    rcases List.mem_cons.1 h with rfl | h
    · exact fun hin => absurd hin.length_le (by decide)
    · exact ih h
  | case4 c d t hcrlf ih =>
    have hne := crlfLines_ne_nil (d :: t)
    have hpre := headD_crlfLines_prefix (d :: t)
    generalize crlfLines (d :: t) = ls at hne hpre ih h
    cases ls with
    | nil => exact absurd rfl hne
    | cons m ls =>
      rcases List.mem_cons.1 h with rfl | h
      · rw [List.infix_cons_iff]
        rintro (hp | hin)
        · -- the line goes on with `d`
          obtain ⟨hc, hm⟩ := List.cons_prefix_cons.1 hp
          have hd := List.cons_prefix_cons.1 (hm.trans hpre)
          exact hcrlf ⟨hc.symm, hd.1.symm⟩
        · exact ih (List.mem_cons_self ..) hin
      · exact ih (List.mem_cons_of_mem _ h)

/-- A text without CR is one line.  A lone LF ends none. -/
theorem crlfLines_of_not_mem {t : Bytes} (h : 13 ∉ t) : crlfLines t = [t] := by
  fun_induction crlfLines t with
  | case1 | case2 => rfl
  | case3 c d t hcrlf => exact absurd (hcrlf.1 ▸ List.mem_cons_self ..) h
  | case4 c d t _ ih =>
    rw [ih fun hmem => h (List.mem_cons_of_mem _ hmem)]
    rfl

/-- The last element that is picked, with what is behind it known not to be:
where a C loop keeps the last of several places, this is the place it ends with. -/
theorem exists_last_split {α : Type*} {P : α → Prop} {l : List α} (h : ∃ a ∈ l, P a) :
    ∃ l₁ a l₂, l = l₁ ++ a :: l₂ ∧ P a ∧ ∀ b ∈ l₂, ¬P b := by
  induction l with
  | nil => exact h.elim fun a ha => absurd ha.1 List.not_mem_nil
  | cons a l ih =>
    by_cases hl : ∃ b ∈ l, P b
    · obtain ⟨l₁, b, l₂, rfl, hb⟩ := ih hl
      exact ⟨a :: l₁, b, l₂, rfl, hb⟩
    · obtain ⟨b, hb, hPb⟩ := h
      rcases List.mem_cons.1 hb with rfl | hb
      · exact ⟨[], b, l, rfl, hPb, fun c hc hPc => hl ⟨c, hc, hPc⟩⟩
      · exact absurd ⟨b, hb, hPb⟩ hl

/-! ### Patterns -/

variable {α : Type*} [BEq α] [LawfulBEq α]

/-- The first place where `pat` occurs. -/
def indexOf (pat l : List α) : Option ℕ :=
  (List.range (l.length + 1 - pat.length)).find? fun i => pat.isPrefixOf (l.drop i)

omit [BEq α] [LawfulBEq α] in
/-- A pattern that is not empty lies inside of the list at each of its
occurrences. -/
theorem add_length_le_of_prefix {pat l : List α} {i : ℕ} (hne : pat ≠ [])
    (h : pat <+: l.drop i) : i + pat.length ≤ l.length := by
  have hlen := h.length_le
  have hpos := List.length_pos_iff.2 hne
  rw [List.length_drop] at hlen
  omega

variable {pat l m : List α} {i : ℕ}

/-- The first occurrence is one, and there is none before it.  Each position is
tried, those too near to the end included, where a pattern that is not empty
cannot be. -/
theorem indexOf_eq_some (hne : pat ≠ []) :
    indexOf pat l = some i ↔ pat <+: l.drop i ∧ ∀ j < i, ¬pat <+: l.drop j := by
  unfold indexOf
  rw [List.find?_range_eq_some]
  simp only [List.isPrefixOf_iff_prefix, List.mem_range, Bool.not_eq_true',
    ← Bool.not_eq_true]
  constructor
  · rintro ⟨h₁, -, h₂⟩
    exact ⟨h₁, h₂⟩
  · rintro ⟨h₁, h₂⟩
    have := add_length_le_of_prefix hne h₁
    exact ⟨h₁, by omega, h₂⟩

/-- There is no first occurrence exactly if there is none at all.  The search
goes over the positions that leave room for the pattern, and there is no
occurrence at the others. -/
theorem indexOf_eq_none (hne : pat ≠ []) :
    indexOf pat l = none ↔ ∀ j, ¬pat <+: l.drop j := by
  unfold indexOf
  rw [List.find?_range_eq_none]
  simp only [Bool.not_eq_true', ← Bool.not_eq_true, List.isPrefixOf_iff_prefix]
  constructor
  · intro h j hj
    have := add_length_le_of_prefix hne hj
    exact h j (by omega) hj
  · exact fun h j _ => h j

/-- The first occurrence ends inside of the list. -/
theorem indexOf_le (hne : pat ≠ []) (h : indexOf pat l = some i) : i + pat.length ≤ l.length :=
  add_length_le_of_prefix hne ((indexOf_eq_some hne).1 h).1

omit [BEq α] [LawfulBEq α] in
/-- An occurrence that ends in the first list does not depend on the second: the
pattern is compared with bytes of the first alone. -/
theorem prefix_drop_append (hle : i + pat.length ≤ l.length) :
    pat <+: (l ++ m).drop i ↔ pat <+: l.drop i := by
  have hlen : pat.length ≤ (l.drop i).length := by rw [List.length_drop]; omega
  rw [List.drop_append_of_le_length (by omega)]
  exact List.isPrefix_append_of_length hlen

/-- **The first occurrence stays the first** when the stream goes on, as an
earlier one would end in front of it and thus be one of the shorter list. -/
theorem indexOf_append (hne : pat ≠ []) (h : indexOf pat l = some i) :
    indexOf pat (l ++ m) = some i := by
  have hle := indexOf_le hne h
  rw [indexOf_eq_some hne] at h ⊢
  refine ⟨(prefix_drop_append hle).2 h.1, fun j hj hp => h.2 j hj ?_⟩
  exact (prefix_drop_append (by omega)).1 hp

/-- **Nothing occurs in front of the first place**: if no occurrence starts in
the first list, the places are those of the second one, moved by its length. -/
theorem indexOf_append_of_skip (hne : pat ≠ []) (h : ∀ j < l.length, ¬pat <+: (l ++ m).drop j) :
    indexOf pat (l ++ m) = (indexOf pat m).map (l.length + ·) := by
  have hdrop : ∀ j, (l ++ m).drop (l.length + j) = m.drop j := fun j => by
    rw [List.drop_append, List.drop_of_length_le (Nat.le_add_right ..), List.nil_append,
      Nat.add_sub_cancel_left]
  cases hm : indexOf pat m with
  | none =>
    rw [Option.map_none, indexOf_eq_none hne]
    intro j
    rcases Nat.lt_or_ge j l.length with hj | hj
    · exact h j hj
    · obtain ⟨k, rfl⟩ := Nat.exists_eq_add_of_le hj
      rw [hdrop]
      exact (indexOf_eq_none hne).1 hm k
  | some i =>
    obtain ⟨hpre, hfirst⟩ := (indexOf_eq_some hne).1 hm
    rw [Option.map_some, indexOf_eq_some hne, hdrop]
    refine ⟨hpre, fun j hj => ?_⟩
    rcases Nat.lt_or_ge j l.length with hj' | hj'
    · exact h j hj'
    · obtain ⟨k, rfl⟩ := Nat.exists_eq_add_of_le hj'
      rw [hdrop]
      exact hfirst k (by omega)

/-- **It is the first occurrence of every prefix that holds it**, and a prefix
that has one holds the first one of the stream. -/
theorem indexOf_take (hne : pat ≠ []) {n : ℕ} :
    indexOf pat (l.take n) = some i ↔ indexOf pat l = some i ∧ i + pat.length ≤ n := by
  constructor
  · intro h
    have hle := indexOf_le hne h
    rw [List.length_take] at hle
    refine ⟨?_, by omega⟩
    have := indexOf_append (m := l.drop n) hne h
    rwa [List.take_append_drop] at this
  · rintro ⟨h, hn⟩
    have hle := indexOf_le hne h
    rw [indexOf_eq_some hne] at h ⊢
    have hsplit : l = l.take n ++ l.drop n := (List.take_append_drop n l).symm
    have hlen : i + pat.length ≤ (l.take n).length := by rw [List.length_take]; omega
    rw [hsplit] at h
    refine ⟨(prefix_drop_append hlen).1 h.1, fun j hj hp => h.2 j hj ?_⟩
    exact (prefix_drop_append (by omega)).2 hp

/-- All prefixes that hold an occurrence have the same first one: both are the
first of the stream. -/
theorem indexOf_take_inj (hne : pat ≠ []) {m n j : ℕ} (hi : indexOf pat (l.take m) = some i)
    (hj : indexOf pat (l.take n) = some j) : i = j :=
  Option.some.inj (((indexOf_take hne).1 hi).1.symm.trans ((indexOf_take hne).1 hj).1)

end Lib
end Dukserver
