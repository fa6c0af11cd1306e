/-
# Joined paths

`duktape/dukpylib.c`, `_ospath_join` (lines 1586-1646), for any number of strings.  A string
that starts with a separator is copied over the start of the buffer, and `len` grows by its
length instead of being set to it.  What the strings before it have written stays behind it,
and the strings behind it are appended further on, behind a NUL.

`coverAt` is what the last string that covers a position has there, by the lengths of the
strings alone.  The loop leaves exactly that (`covers_foldl`), and `ospathJoin_iff` compares
it with the fold that starts again.
-/

import Dukserver.Pylib.Abspath
import Mathlib.Algebra.Order.BigOperators.Group.List

namespace Dukserver
namespace Pylib

open Lib (Bytes ascii byteAt cstr byteAt_append byteAt_eq_zero)

/-! ### Where the strings are written -/

/-- The strings but the empty ones. -/
def texts (ss : List Bytes) : List Bytes := ss.filter fun s => decide (s ≠ [])

/-- A string that is written at the start, `older` being those before it, the
last one first. -/
def AtStart (older : List Bytes) (t : Bytes) : Prop := older = [] ∨ isSep (byteAt t 0) = true

instance (older : List Bytes) (t : Bytes) : Decidable (AtStart older t) :=
  inferInstanceAs (Decidable (older = [] ∨ isSep (byteAt t 0) = true))

/-- The last string ends where the next one is appended, and with a separator. -/
def endsInSep : List Bytes → Bool
  | [] => false
  | t :: older =>
    (decide (older = []) || !isSep (byteAt t 0)) && isSep (byteAt t (t.length - 1))

/-- What is written in front of an appended string. -/
def gap (older : List Bytes) : Bytes := if endsInSep older then [] else [splitChar]

/-- Where the next string is appended: behind the lengths of all of them. -/
def reach : List Bytes → ℕ
  | [] => 0
  | t :: older =>
    reach older + if AtStart older t then t.length else (gap older ++ t).length

/-- What the last string that covers a position has there. -/
def coverAt : List Bytes → ℕ → UInt8
  | [], _ => 0
  | t :: older, p =>
    if AtStart older t then if p < t.length then byteAt t p else coverAt older p
    else if p < reach older then coverAt older p else byteAt (gap older ++ t) (p - reach older)

/-- The buffer has at each position what the last string has there. -/
structure Covers (older : List Bytes) (n : ℕ) (b : Bytes × ℕ) : Prop where
  len : b.2 = reach older
  size : b.1.length = n
  byte : ∀ p, byteAt b.1 p = coverAt older p

section Loop

variable {older ts ss : List Bytes} {s t w buf : Bytes} {n p len : ℕ}

/-- The buffer keeps its length as long as what is written fits. -/
theorem length_copyTo (h : len + s.length ≤ buf.length) :
    (copyTo buf len s).length = buf.length := by
  simp only [copyTo, List.length_append, List.length_take, List.length_drop]
  omega

/-- Behind a `memcpy` the bytes it has written are those of the string, and the
others are what they were. -/
theorem byteAt_copyTo (h : len ≤ buf.length) :
    byteAt (copyTo buf len s) p =
      if len ≤ p ∧ p < len + s.length then byteAt s (p - len) else byteAt buf p := by
  have htake : (buf.take len).length = len := List.length_take_of_le h
  rw [copyTo, List.append_assoc, byteAt_append, htake, byteAt_append]
  by_cases hlt : p < len
  · rw [if_pos hlt, if_neg (by omega), byteAt, byteAt, List.getD_eq_getElem?_getD,
      List.getElem?_take_of_lt hlt, List.getD_eq_getElem?_getD]
  · rw [if_neg hlt]
    by_cases hmid : p < len + s.length
    · rw [if_pos (by omega), if_pos (by omega)]
    · rw [if_neg (by omega), if_neg (by omega), byteAt, byteAt, List.getD_eq_getElem?_getD,
        List.getElem?_drop, List.getD_eq_getElem?_getD]
      congr 2
      omega

/-- At most one separator is put between two strings. -/
theorem length_gap_le (older : List Bytes) : (gap older).length ≤ 1 := by
  unfold gap
  split_ifs
  · exact Nat.zero_le _
  · exact le_rfl

/-- What was written is not empty if a string was: `len` counts each of them.
An absolute string starts at the beginning of the buffer and is counted all the
same. -/
theorem reach_pos (hne : ∀ u ∈ t :: older, u ≠ []) : 0 < reach (t :: older) := by
  have ht : 0 < t.length := List.length_pos_of_ne_nil (hne t (List.mem_cons_self ..))
  rw [reach]
  split_ifs
  · omega
  · rw [List.length_append]
    omega

/-- Nothing is written behind the last string, as `len` is at least the end of
each of them. -/
theorem coverAt_of_reach_le (h : reach older ≤ p) : coverAt older p = 0 := by
  induction older generalizing p with
  | nil => rfl
  | cons t older ih =>
    rw [reach] at h
    rw [coverAt]
    split_ifs at h ⊢ with hstart hlt hlt
    · omega
    · exact ih (by omega)
    · rw [List.length_append] at h
      omega
    · exact byteAt_eq_zero (by omega)

/-- What is in front of the place for the next string is the last byte of the
string before it, wherever that was written.  The loop looks at this byte to see
whether a separator is missing. -/
theorem isSep_coverAt (hne : ∀ u ∈ older, u ≠ []) :
    isSep (coverAt older (reach older - 1)) = endsInSep older := by
  cases older with
  | nil => rfl
  | cons t older =>
    have ht : 0 < t.length := List.length_pos_of_ne_nil (hne t (List.mem_cons_self ..))
    rw [reach, coverAt, endsInSep]
    by_cases hstart : AtStart older t
    · rw [if_pos hstart, if_pos hstart]
      rcases older with _ | ⟨u, older⟩
      · rw [reach, Nat.zero_add, if_pos (by omega), decide_eq_true rfl, Bool.true_or, Bool.true_and]
      · -- the end of a string that starts again is not where the next one goes
        have hsep : isSep (byteAt t 0) = true := hstart.resolve_left (List.cons_ne_nil _ _)
        have hpos := reach_pos fun v hv => hne v (List.mem_cons_of_mem _ hv)
        rw [if_neg (by omega), coverAt_of_reach_le (by omega), hsep,
          decide_eq_false (List.cons_ne_nil _ _)]
        rfl
    · have hgap : 0 < (gap older ++ t).length := by
        rw [List.length_append]
        omega
      rw [if_neg hstart, if_neg hstart, if_neg (by omega), byteAt_append]
      rw [List.length_append] at hgap ⊢
      rw [AtStart, not_or] at hstart
      rw [if_neg (by omega), decide_eq_false hstart.1, Bool.eq_false_iff.2 hstart.2, Bool.false_or,
        Bool.not_false, Bool.true_and]
      congr 2
      omega

/-- The separator and the string are one text, written by two calls.  The second
one begins where the first one ended. -/
theorem copyTo_copyTo (w : Bytes) (h : len + w.length ≤ buf.length) :
    copyTo (copyTo buf len w) (len + w.length) s = copyTo buf len (w ++ s) := by
  have htake : (buf.take len ++ w).length = len + w.length := by
    rw [List.length_append, List.length_take]
    omega
  rw [copyTo, copyTo, copyTo, List.take_append, htake, Nat.sub_self, List.take_zero,
    List.append_nil, List.take_of_length_le htake.le, List.drop_append, htake,
    List.drop_eq_nil_of_le (by omega), List.nil_append, List.drop_drop, List.length_append]
  have hdrop : len + w.length + (len + w.length + s.length - (len + w.length)) =
      len + (w.length + s.length) := by omega
  rw [hdrop, List.append_assoc, List.append_assoc, List.append_assoc, List.append_assoc]

/-- An empty string is skipped. -/
theorem joinStep_nil (b : Bytes × ℕ) : joinStep b [] = b := if_pos le_rfl

/-- The first string, and each one that starts with a separator, is written to
the start of the buffer; but `len` is added to, and not set.  For the first
string this is the same. -/
theorem joinStep_start {b : Bytes × ℕ} (hs : s ≠ []) (h : b.2 = 0 ∨ isSep (byteAt s 0) = true) :
    joinStep b s = (copyTo b.1 0 s, b.2 + s.length) := by
  have hlen : ¬s.length ≤ 0 := by simpa using hs
  unfold joinStep
  rw [if_neg hlen]
  by_cases hzero : b.2 = 0
  · rw [if_pos hzero, hzero, Nat.zero_add]
  · rw [if_neg hzero, if_pos (h.resolve_left hzero)]

/-- Every other string is written at `len`, with a separator in front if there
is none. -/
theorem joinStep_append (hs : s ≠ []) (hlen : len ≠ 0) (hsep : ¬isSep (byteAt s 0) = true)
    (h : len + 1 ≤ buf.length) (hends : isSep (byteAt buf (len - 1)) = endsInSep older) :
    joinStep (buf, len) s = (copyTo buf len (gap older ++ s), len + (gap older ++ s).length) := by
  unfold joinStep gap
  rw [if_neg (by simpa using hs), if_neg hlen, if_neg hsep]
  simp only
  rw [hends]
  split_ifs
  · rfl
  · rw [← copyTo_copyTo [splitChar] h, List.length_append, List.length_singleton, Nat.add_assoc]

/-- **A pass of the loop** leaves at each position what the last string that
covers it has there.  This is the step of the induction over the strings. -/
theorem covers_joinStep {b : Bytes × ℕ} (hcov : Covers older n b)
    (hne : ∀ u ∈ s :: older, u ≠ []) (hn : reach older + s.length + 1 ≤ n) :
    Covers (s :: older) n (joinStep b s) := by
  obtain ⟨buf, len⟩ := b
  obtain ⟨hlen, hsize, hbyte⟩ := hcov
  simp only at hlen hsize hbyte
  have hs : s ≠ [] := hne s (List.mem_cons_self ..)
  have holder : ∀ u ∈ older, u ≠ [] := fun u hu => hne u (List.mem_cons_of_mem _ hu)
  by_cases hstart : AtStart older s
  · have hzero : len = 0 ∨ isSep (byteAt s 0) = true :=
      hstart.imp_left fun h => by rw [hlen, h, reach]
    rw [joinStep_start hs hzero]
    refine ⟨?_, (length_copyTo (by simp only; omega)).trans hsize, fun p => ?_⟩
    · rw [reach, if_pos hstart, hlen]
    · simp only
      rw [byteAt_copyTo (Nat.zero_le _), coverAt, if_pos hstart, hbyte, Nat.zero_add, Nat.sub_zero]
      simp only [Nat.zero_le, true_and]
  · have hparts := not_or.1 hstart
    obtain ⟨t, older, rfl⟩ := List.exists_cons_of_ne_nil hparts.1
    have hpos := reach_pos holder
    have hgap := length_gap_le (t :: older)
    rw [joinStep_append hs (by omega) hparts.2 (by omega)
      (by rw [hbyte, hlen, isSep_coverAt holder])]
    refine ⟨?_, (length_copyTo (by rw [List.length_append]; omega)).trans hsize, fun p => ?_⟩
    · rw [reach, if_neg hstart, hlen]
    · simp only
      rw [byteAt_copyTo (by omega), coverAt, if_neg hstart, hbyte, hlen]
      split_ifs with hin hlt hlt
      · omega
      · rfl
      · rfl
      · rw [coverAt_of_reach_le (by omega), byteAt_eq_zero (by omega)]

/-- The buffer of `_ospath_join`, which has room for each string and a
separator, is large enough. -/
theorem reach_le (older : List Bytes) :
    reach older ≤ (older.map fun u => u.length + 1).sum := by
  induction older with
  | nil => exact le_rfl
  | cons t older ih =>
    have hgap := length_gap_le older
    rw [reach, List.map_cons, List.sum_cons]
    split_ifs
    · omega
    · rw [List.length_append]
      omega

/-- Empty strings can be left out beforehand, for the loop and for what it is
compared with. -/
theorem foldl_texts {β : Type*} {f : β → Bytes → β} (hf : ∀ b, f b [] = b) (ss : List Bytes)
    (b : β) : ss.foldl f b = (texts ss).foldl f b := by
  induction ss generalizing b with
  | nil => rfl
  | cons s ss ih =>
    unfold texts
    rw [List.foldl_cons, ih, List.filter_cons]
    by_cases hs : s = []
    · rw [if_neg (by simpa using hs), hs, hf]
      rfl
    · rw [if_pos (by simpa using hs), List.foldl_cons]
      rfl

/-- What is left of the strings is not empty. -/
theorem ne_nil_of_mem_texts (h : t ∈ texts ss) : t ≠ [] := by
  simpa using (List.mem_filter.1 h).2

/-- **What the loop leaves in the buffer**, by induction on the strings: each
pass is `covers_joinStep`, and the buffer is long enough for all of them. -/
theorem covers_foldl {b : Bytes × ℕ} (hcov : Covers older n b)
    (hne : ∀ u ∈ ts.reverse ++ older, u ≠ [])
    (hn : ((ts.reverse ++ older).map fun u => u.length + 1).sum ≤ n) :
    Covers (ts.reverse ++ older) n (ts.foldl joinStep b) := by
  induction ts generalizing older b with
  | nil => exact hcov
  | cons t ts ih =>
    rw [List.reverse_cons, List.append_assoc, List.singleton_append] at hne hn ⊢
    rw [List.foldl_cons]
    have hpass := covers_joinStep hcov (fun u hu => hne u (List.mem_append_right _ hu)) (by
      have hle := reach_le older
      rw [List.map_append, List.sum_append, List.map_cons, List.sum_cons] at hn
      omega)
    exact ih hpass hne hn

end Loop

/-! ### Comparing with the fold -/

section Fold

variable {older before after ts ss : List Bytes} {t w : Bytes} {n p : ℕ}

/-- The strings are written one behind the other, and make up a path. -/
structure Writes (older : List Bytes) (w : Bytes) : Prop where
  len : reach older = w.length
  byte : ∀ p, coverAt older p = byteAt w p
  ends : endsInSep older = isSep (byteAt w (w.length - 1))

/-- Nothing is added for an empty string. -/
theorem basePath_nil_right (w : Bytes) : basePath w [] = w :=
  (if_neg (by decide)).trans (if_pos rfl)

/-- What a relative string adds: itself, behind one separator. -/
theorem basePath_append (hw : w ≠ []) (ht : t ≠ []) (hsep : isSep (byteAt t 0) = false) :
    basePath w t =
      w ++ ((if isSep (byteAt w (w.length - 1)) then [] else [splitChar]) ++ t) := by
  unfold basePath joined
  rw [hsep, if_neg Bool.noConfusion, if_neg ht, if_neg hw]
  split_ifs <;> rfl

/-- A string that starts with a separator is the path from there on; this is
what the comment of the source says, that previous variables are overwritten. -/
theorem basePath_restart (hsep : isSep (byteAt t 0) = true) : basePath w t = t := if_pos hsep

/-- The first string is written as it is.  No separator is put in front of it,
as nothing is before it. -/
theorem writes_first (t : Bytes) : Writes [t] t where
  len := by rw [reach, reach, Nat.zero_add, if_pos (.inl rfl)]
  byte p := by
    rw [coverAt, if_pos (.inl rfl), coverAt]
    split_ifs with hp
    · rfl
    · exact (byteAt_eq_zero (by omega)).symm
  ends := by
    rw [endsInSep, decide_eq_true rfl, Bool.true_or, Bool.true_and]

/-- A relative string is written behind the others, where the path has it too,
as both put a separator between them unless there is one. -/
theorem writes_append (h : Writes older w) (hw : w ≠ []) (ht : t ≠ [])
    (hsep : isSep (byteAt t 0) = false) : Writes (t :: older) (basePath w t) := by
  have holder : older ≠ [] := by
    rintro rfl
    exact hw (List.length_eq_zero_iff.1 h.len.symm)
  have hstart : ¬AtStart older t := by
    rw [AtStart, hsep, not_or]
    exact ⟨holder, Bool.noConfusion⟩
  have hpath : basePath w t = w ++ (gap older ++ t) := by
    rw [basePath_append hw ht hsep, gap, h.ends]
  have hlen : 0 < t.length := List.length_pos_of_ne_nil ht
  constructor
  · rw [reach, if_neg hstart, hpath, h.len]
    exact List.length_append.symm
  · intro p
    rw [coverAt, if_neg hstart, hpath, h.len, h.byte, byteAt_append w]
  · rw [endsInSep, hsep, decide_eq_false holder, hpath, byteAt_append, byteAt_append (gap older),
      List.length_append, List.length_append, if_neg (by omega), if_neg (by omega),
      Bool.false_or, Bool.not_false, Bool.true_and]
    congr 2
    omega

/-- So are any number of relative strings, by induction on them.  What an
absolute string does comes in between and is treated apart. -/
theorem writes_foldl (h : Writes older w) (hw : w ≠ []) (hne : ∀ u ∈ after, u ≠ [])
    (hrel : ∀ u ∈ after, isSep (byteAt u 0) = false) :
    Writes (after.reverse ++ older) (after.foldl basePath w) := by
  induction after generalizing older w with
  | nil => exact h
  | cons t after ih =>
    rw [List.forall_mem_cons] at hne hrel
    rw [List.reverse_cons, List.append_assoc, List.singleton_append, List.foldl_cons]
    refine ih (writes_append h hw hne.1 hrel.1) ?_ hne.2 hrel.2
    rw [basePath_append hw hne.1 hrel.1]
    exact List.append_ne_nil_of_left_ne_nil hw _

/-- Appended strings leave what is there: each is written behind all those
before it. -/
theorem coverAt_append (holder : older ≠ []) (hrel : ∀ u ∈ after, isSep (byteAt u 0) = false)
    (hp : p < reach older) : coverAt (after.reverse ++ older) p = coverAt older p := by
  induction after generalizing older with
  | nil => rfl
  | cons t after ih =>
    have hstart : ¬AtStart older t := by
      rw [AtStart, hrel t (List.mem_cons_self ..), not_or]
      exact ⟨holder, Bool.noConfusion⟩
    have hreach : p < reach (t :: older) := by
      rw [reach]
      omega
    rw [List.reverse_cons, List.append_assoc, List.singleton_append,
      ih (List.cons_ne_nil _ _) (fun u hu => hrel u (List.mem_cons_of_mem _ hu)) hreach, coverAt,
      if_neg hstart, if_pos hp]

/-- The path goes on behind the string that starts it, as relative strings only
add to its end. -/
theorem prefix_foldl_basePath (hw : w ≠ []) (hne : ∀ u ∈ after, u ≠ [])
    (hrel : ∀ u ∈ after, isSep (byteAt u 0) = false) : w <+: after.foldl basePath w := by
  induction after generalizing w with
  | nil => exact List.prefix_refl w
  | cons t after ih =>
    rw [List.forall_mem_cons] at hne hrel
    rw [List.foldl_cons, basePath_append hw hne.1 hrel.1]
    exact (List.prefix_append w _).trans
      (ih (List.append_ne_nil_of_left_ne_nil hw _) hne.2 hrel.2)

/-- Paths of strings without NUL have none, so a path is seen whole as a C
string. -/
theorem not_mem_foldl_basePath (hw : 0 ∉ w) (hs : ∀ u ∈ after, 0 ∉ u) :
    0 ∉ after.foldl basePath w := by
  induction after generalizing w with
  | nil => exact hw
  | cons t after ih =>
    rw [List.forall_mem_cons] at hs
    exact ih (not_mem_basePath hw hs.1) hs.2

/-- The strings before one that starts again have left behind it what the path
has there. -/
def LeavesPath (before : List Bytes) (t path : Bytes) : Prop :=
  ∀ p, t.length ≤ p → p ≤ path.length → coverAt before.reverse p = byteAt path p

/-- What a string that starts again leaves of the strings before it, up to their
end: it covers only as much as it is long.  This is the defect, as the path has
nothing of them. -/
theorem coverAt_again (hsep : isSep (byteAt t 0) = true)
    (hrel : ∀ u ∈ after, isSep (byteAt u 0) = false) {p : ℕ}
    (hp : p < reach before.reverse + t.length) :
    coverAt (before ++ t :: after).reverse p =
      if p < t.length then byteAt t p else coverAt before.reverse p := by
  have hstart : AtStart before.reverse t := .inr hsep
  have hreach : reach (t :: before.reverse) = reach before.reverse + t.length := by
    rw [reach, if_pos hstart]
  rw [List.reverse_append, List.reverse_cons, List.append_assoc, List.singleton_append,
    coverAt_append (List.cons_ne_nil _ _) hrel (by omega), coverAt, if_pos hstart]

/-- **A string that starts again hides what is before it exactly if** that is
what the path has behind it. -/
theorem leavesPath_iff (hbefore : before ≠ []) (hne : ∀ u ∈ before ++ t :: after, u ≠ [])
    (hnul : ∀ u ∈ before ++ t :: after, 0 ∉ u) (hsep : isSep (byteAt t 0) = true)
    (hrel : ∀ u ∈ after, isSep (byteAt u 0) = false) :
    (∀ p ≤ (after.foldl basePath t).length,
      coverAt (before ++ t :: after).reverse p = byteAt (after.foldl basePath t) p) ↔
        LeavesPath before t (after.foldl basePath t) := by
  have hafter : ∀ u ∈ after, u ∈ before ++ t :: after := fun u hu =>
    List.mem_append_right _ (List.mem_cons_of_mem _ hu)
  have ht := hne t (List.mem_append_right _ (List.mem_cons_self ..))
  have hnulPath : 0 ∉ after.foldl basePath t :=
    not_mem_foldl_basePath (hnul t (List.mem_append_right _ (List.mem_cons_self ..)))
      fun u hu => hnul u (hafter u hu)
  obtain ⟨rest, hrest⟩ := prefix_foldl_basePath ht (fun u hu => hne u (hafter u hu)) hrel
  have hpos : 0 < reach before.reverse := by
    obtain ⟨u, us, hus⟩ := List.exists_cons_of_ne_nil (List.reverse_ne_nil_iff.2 hbefore)
    rw [hus]
    exact reach_pos fun v hv =>
      hne v (List.mem_append_left _ (List.mem_reverse.1 (by rw [hus]; exact hv)))
  have hlen : 0 < t.length := List.length_pos_of_ne_nil ht
  generalize after.foldl basePath t = path at hnulPath hrest ⊢
  -- behind the string and all before it there is a NUL in front of what is appended
  have hshort : coverAt before.reverse (max t.length (reach before.reverse)) = byteAt path
      (max t.length (reach before.reverse)) → path.length < reach before.reverse + t.length := by
    intro hq
    rw [coverAt_of_reach_le (le_max_right _ _)] at hq
    by_contra hlong
    exact Lib.byteAt_ne_zero hnulPath (by omega) hq.symm
  constructor
  · intro hall p hp hpath
    have hlt : path.length < reach before.reverse + t.length := by
      by_contra hlong
      have hq := hall (max t.length (reach before.reverse)) (by omega)
      rw [coverAt_again hsep hrel (by omega), if_neg (by omega)] at hq
      exact hlong (hshort hq)
    have hbyte := hall p hpath
    rwa [coverAt_again hsep hrel (by omega), if_neg (by omega)] at hbyte
  · intro hleaves p hpath
    have hlt : path.length < reach before.reverse + t.length := by
      by_contra hlong
      exact hlong (hshort (hleaves _ (le_max_left _ _) (by omega)))
    rw [coverAt_again hsep hrel (by omega)]
    split_ifs with hp
    · rw [← hrest, byteAt_append, if_pos hp]
    · exact hleaves p (by omega) hpath

/-- Without a string that starts again the path is what is written: each byte of
the buffer is that of the last string that covers it. -/
theorem covers_path (hne : ∀ u ∈ ts, u ≠ [])
    (hrel : ∀ u ∈ ts.tail, isSep (byteAt u 0) = false) (p : ℕ) :
    coverAt ts.reverse p = byteAt (ts.foldl basePath []) p := by
  cases ts with
  | nil => exact (byteAt_eq_zero (Nat.zero_le _)).symm
  | cons t after =>
    have ht := hne t (List.mem_cons_self ..)
    have hfirst : basePath [] t = t := by
      unfold basePath
      split_ifs
      · rfl
      · exact joined_nil_left t
    rw [List.reverse_cons, List.foldl_cons, hfirst]
    exact (writes_foldl (writes_first t) ht (fun u hu => hne u (List.mem_cons_of_mem _ hu))
      hrel).byte p

/-- The buffer as the loop leaves it, and `_ospath_join` returns what is in
front of its first NUL. -/
theorem ospathJoin_covers (hss : ss ≠ []) : ∃ buf, ospathJoin ss = some (cstr buf) ∧
    ∀ p, byteAt buf p = coverAt (texts ss).reverse p := by
  obtain ⟨s, ss', rfl⟩ := List.exists_cons_of_ne_nil hss
  unfold ospathJoin
  simp only
  generalize htotal : ((s :: ss').map fun u => u.length + 1).sum = total
  have hpos : ¬total ≤ 0 := by
    rw [← htotal, List.map_cons, List.sum_cons]
    omega
  have hsum : ((texts (s :: ss')).map fun u => u.length + 1).sum ≤ total := by
    rw [← htotal]
    exact (List.filter_sublist.map _).sum_le_sum fun _ _ => Nat.zero_le _
  rw [if_neg hpos]
  refine ⟨_, rfl, ?_⟩
  have hzero : Covers [] (total + (s :: ss').length + 1)
      (List.replicate (total + (s :: ss').length + 1) 0, 0) := by
    refine ⟨rfl, List.length_replicate, fun p => ?_⟩
    rw [byteAt, List.getD_eq_getElem?_getD, List.getElem?_replicate, coverAt]
    split_ifs <;> rfl
  have hloop := @covers_foldl [] (texts (s :: ss')) _ _ hzero
    (fun u hu => ne_nil_of_mem_texts (List.mem_reverse.1 (by rwa [List.append_nil] at hu)))
    (by rw [List.append_nil, List.map_reverse, List.sum_reverse]; omega)
  rw [List.append_nil] at hloop
  rw [foldl_texts joinStep_nil]
  exact hloop.byte

/-- **`os.path.join` gives the fold exactly if** there is a string, and what the
strings before the last one that starts again have left behind it is what those
behind it add. -/
theorem ospathJoin_iff (h : ∀ s ∈ ss, 0 ∉ s) :
    ospathJoin ss = some (ss.foldl basePath []) ↔
      ss ≠ [] ∧ ∀ before t after, texts ss = before ++ t :: after → before ≠ [] →
        isSep (byteAt t 0) = true → (∀ u ∈ after, isSep (byteAt u 0) = false) →
        LeavesPath before t (after.foldl basePath t) := by
  rcases eq_or_ne ss [] with rfl | hss
  · exact iff_of_false (fun he => by cases he) fun hc => hc.1 rfl
  obtain ⟨buf, hjoin, hbuf⟩ := ospathJoin_covers hss
  have hne : ∀ u ∈ texts ss, u ≠ [] := fun u => ne_nil_of_mem_texts
  have hnul : ∀ u ∈ texts ss, 0 ∉ u := fun u hu => h u (List.mem_filter.1 hu).1
  rw [hjoin, Option.some.injEq, foldl_texts basePath_nil_right,
    Lib.cstr_eq_iff (not_mem_foldl_basePath List.not_mem_nil hnul), and_iff_right hss]
  simp only [hbuf]
  generalize texts ss = ts at hne hnul
  have hrestart : ∀ before t after, ts = before ++ t :: after → isSep (byteAt t 0) = true →
      ts.foldl basePath [] = after.foldl basePath t := by
    rintro before t after rfl hsep
    rw [List.foldl_append, List.foldl_cons, basePath_restart hsep]
  constructor
  · rintro hall before t after rfl hbefore hsep hrel
    rw [hrestart before t after rfl hsep] at hall
    exact (leavesPath_iff hbefore hne hnul hsep hrel).1 hall
  · intro hleaves
    by_cases hlater : ∃ u ∈ ts.tail, isSep (byteAt u 0) = true
    · obtain ⟨l₁, t, after, htail, hsep, hrel⟩ := Lib.exists_last_split hlater
      obtain ⟨first, ts, rfl⟩ : ∃ first rest, ts = first :: rest := by
        rcases ts with _ | ⟨first, rest⟩
        · exact absurd htail.symm (List.append_ne_nil_of_right_ne_nil _ (List.cons_ne_nil _ _))
        · exact ⟨first, rest, rfl⟩
      obtain rfl : ts = l₁ ++ t :: after := htail
      have hrel' : ∀ u ∈ after, isSep (byteAt u 0) = false := fun u hu =>
        Bool.eq_false_iff.2 (hrel u hu)
      rw [hrestart (first :: l₁) t after rfl hsep]
      exact (leavesPath_iff (List.cons_ne_nil _ _) hne hnul hsep hrel').2
        (hleaves (first :: l₁) t after rfl (List.cons_ne_nil _ _) hsep hrel')
    · intro p _
      exact covers_path hne (fun u hu => Bool.eq_false_iff.2 fun hsep => hlater ⟨u, hu, hsep⟩) p

/-- The hypothesis is satisfiable, for strings that are joined well although the
last one starts again. -/
theorem ospathJoin_iff_drive :
    [ascii "C:/", ascii "", ascii "test", ascii "/other/place"] ≠ [] ∧
      ∀ before t after, texts [ascii "C:/", ascii "", ascii "test", ascii "/other/place"] =
          before ++ t :: after → before ≠ [] → isSep (byteAt t 0) = true →
        (∀ u ∈ after, isSep (byteAt u 0) = false) →
        LeavesPath before t (after.foldl basePath t) :=
  (ospathJoin_iff (by decide)).1 (by decide)

/-- The second string starts again, and the rest of the first one stays behind
it. -/
theorem ospathJoin_stale :
    (∀ s ∈ [ascii "/abc", ascii "/d"], 0 ∉ s) ∧
      ospathJoin [ascii "/abc", ascii "/d"] = some (ascii "/dbc") ∧
      ospathJoin [ascii "/abc", ascii "/d"] ≠
        some ([ascii "/abc", ascii "/d"].foldl basePath []) := by
  have hstale : ospathJoin [ascii "/abc", ascii "/d"] = some (ascii "/dbc") := by decide
  refine ⟨by decide, hstale, ?_⟩
  rw [hstale]
  decide

end Fold

end Pylib
end Dukserver
