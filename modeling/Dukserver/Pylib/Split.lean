/-
# Split paths

`duktape/dukpylib.c`, `_ospath_split` (lines 1690-1747) and `_ospath_splitext` (lines
1749-1808).  Both scan back from the end, one for a separator and one for a dot.

`split` drops the separator that it finds, also where it is the root or one of several, and
`join` puts one back where it sees none.  `splitRejoins_iff` says for which paths the two
parts are normalised to the same path again.  The scan for the dot does not stop at a
separator, and `cutsInTail_iff` says what this means for the extension.
-/

import Dukserver.Pylib.Abspath
import Mathlib.Algebra.Ring.Parity
import Mathlib.Data.List.DropRight

namespace Dukserver
namespace Pylib

open Lib (Bytes ascii byteAt cstr byteAt_append byteAt_eq_zero)

/-! ### The scans -/

section Scans

variable {p : UInt8 → Bool} {fn w tail : Bytes} {c : UInt8}

/-- The loop of `_ospath_split` looks at each byte from the end for one of the
two separators, so it is the scan for a byte of a kind, like the one of
`_ospath_splitext` for a dot. -/
theorem lastSep_eq_lastWhere (fn : Bytes) (n : ℕ) : lastSep fn n = lastWhere isSep fn n := by
  induction n with
  | zero => rfl
  | succ n ih => rw [lastSep, lastWhere, ih]

/-- A scan comes to the start of the text if no byte is of the kind.  The
induction is on how far it still has to go, as every index it looks at is one of
the text. -/
theorem lastWhere_of_none (h : ∀ b ∈ fn, p b = false) : lastWhere p fn fn.length = none := by
  have hscan : ∀ n ≤ fn.length, lastWhere p fn n = none := by
    intro n hn
    induction n with
    | zero => rfl
    | succ n ih =>
      rw [lastWhere, h _ (Lib.byteAt_mem (by omega)), if_neg Bool.noConfusion, ih (by omega)]
  exact hscan _ le_rfl

/-- The scan finds the last byte of the kind: it passes over the bytes behind
it, which are of another kind, and does not look at those in front. -/
theorem lastWhere_append (hc : p c = true) (h : ∀ b ∈ tail, p b = false) :
    lastWhere p (w ++ c :: tail) (w ++ c :: tail).length = some w.length := by
  have hscan : ∀ n ≤ tail.length,
      lastWhere p (w ++ c :: tail) (w.length + 1 + n) = some w.length := by
    intro n hn
    induction n with
    | zero =>
      have hbyte : byteAt (w ++ c :: tail) w.length = c := by
        rw [byteAt_append, if_neg (lt_irrefl _), Nat.sub_self]
        rfl
      rw [Nat.add_zero, lastWhere, hbyte, if_pos hc]
    | succ n ih =>
      have hbyte : byteAt (w ++ c :: tail) (w.length + 1 + n) = byteAt tail n := by
        rw [byteAt_append, if_neg (by omega), Nat.add_assoc, Nat.add_sub_cancel_left,
          Nat.add_comm 1]
        rfl
      rw [← Nat.add_assoc, lastWhere, hbyte, h _ (Lib.byteAt_mem (by omega)),
        if_neg Bool.noConfusion, ih (by omega)]
  rw [List.length_append, List.length_cons, Nat.add_comm tail.length, ← Nat.add_assoc]
  exact hscan _ le_rfl

/-- The byte that was found belongs to neither part. -/
theorem cutAt_append (w tail : Bytes) (c : UInt8) :
    cutAt (w ++ c :: tail) (some w.length) = [w, tail] := by
  rw [cutAt, List.take_left, List.append_cons, List.drop_left' (by rw [List.length_append]; rfl)]

/-- A text is cut at the last byte of a kind, or has none.  The results below
are by these two cases, one lemma each, so that no proof follows the scan
itself. -/
theorem exists_lastWhere (p : UInt8 → Bool) (fn : Bytes) :
    (∀ b ∈ fn, p b = false) ∨
      ∃ w c tail, fn = w ++ c :: tail ∧ p c = true ∧ ∀ b ∈ tail, p b = false := by
  by_cases h : ∃ b ∈ fn, p b = true
  · obtain ⟨w, c, tail, hfn, hc, htail⟩ := Lib.exists_last_split h
    exact .inr ⟨w, c, tail, hfn, hc, fun b hb => Bool.eq_false_iff.2 (htail b hb)⟩
  · exact .inl fun b hb => Bool.eq_false_iff.2 fun hpb => h ⟨b, hb, hpb⟩

/-- A path with a separator or a dot in it is not empty, so the guard of both
functions lets it pass. -/
theorem length_append_cons_pos : ¬(w ++ c :: tail).length ≤ 0 := by
  rw [List.length_append, List.length_cons]
  omega

/-- `split` cuts at the last separator, whatever is in front of it. -/
theorem ospathSplit_append (hc : isSep c = true) (h : ∀ b ∈ tail, isSep b = false) :
    ospathSplit (w ++ c :: tail) = [w, tail] := by
  rw [ospathSplit, if_neg length_append_cons_pos, lastSep_eq_lastWhere, lastWhere_append hc h,
    cutAt_append]

/-- A path without a separator is its own first part, and the second one is
empty: `split` does not take it for a name without a directory. -/
theorem ospathSplit_of_none (hne : fn ≠ []) (h : ∀ b ∈ fn, isSep b = false) :
    ospathSplit fn = [fn, []] := by
  rw [ospathSplit, if_neg (by simpa using hne), lastSep_eq_lastWhere, lastWhere_of_none h, cutAt]

/-- `splitext` cuts at the last dot, also where a separator comes behind it. -/
theorem ospathSplitext_append (h : ∀ b ∈ tail, b ≠ 46) :
    ospathSplitext (w ++ 46 :: tail) = [w, tail] := by
  rw [ospathSplitext, if_neg length_append_cons_pos,
    lastWhere_append (by rfl) fun b hb => beq_eq_false_iff_ne.2 (h b hb), cutAt_append]

/-- A path without a dot has the empty extension. -/
theorem ospathSplitext_of_none (hne : fn ≠ []) (h : 46 ∉ fn) : ospathSplitext fn = [fn, []] := by
  rw [ospathSplitext, if_neg (by simpa using hne),
    lastWhere_of_none fun b hb => beq_eq_false_iff_ne.2 (ne_of_mem_of_not_mem hb h), cutAt]

/-- `dirname` is the first part of `split`, found by the same scan. -/
theorem ospathDirname_append (hc : isSep c = true) (h : ∀ b ∈ tail, isSep b = false) :
    ospathDirname (w ++ c :: tail) = w := by
  rw [ospathDirname, lastSep_eq_lastWhere, lastWhere_append hc h]
  exact List.take_left

/-- Without a separator `dirname` is the whole path, as the first part of
`split` is. -/
theorem ospathDirname_of_none (h : ∀ b ∈ fn, isSep b = false) : ospathDirname fn = fn := by
  rw [ospathDirname, lastSep_eq_lastWhere, lastWhere_of_none h]

end Scans

/-! ### The extension -/

section Extension

variable {s head tail : Bytes} {c : UInt8}

/-- A separator is no dot, so a cut at one is no cut at the other. -/
theorem ne_dot_of_isSep (hc : isSep c = true) : c ≠ 46 := by
  rintro rfl
  cases hc

/-- The extension of a path is cut off in the last part of it. -/
def CutsInTail (s : Bytes) : Prop :=
  ∃ head tail root ext, ospathSplit s = [head, tail] ∧ ospathSplitext s = [root, ext] ∧
    (tail ≠ [] → (ospathSplitext tail)[1]? = some ext) ∧ ∀ b ∈ ext, isSep b = false

/-- Both functions have one result, so what is asked of some parts is asked of
these. -/
theorem cutsInTail_of_parts {root ext : Bytes} (hsplit : ospathSplit s = [head, tail])
    (hext : ospathSplitext s = [root, ext]) :
    CutsInTail s ↔
      (tail ≠ [] → (ospathSplitext tail)[1]? = some ext) ∧ ∀ b ∈ ext, isSep b = false := by
  constructor
  · rintro ⟨head', tail', root', ext', hsplit', hext', hcut⟩
    obtain ⟨-, rfl⟩ : head = head' ∧ tail = tail' := by
      simpa using hsplit.symm.trans hsplit'
    obtain ⟨-, rfl⟩ : root = root' ∧ ext = ext' := by
      simpa using hext.symm.trans hext'
    exact hcut
  · exact fun hcut => ⟨head, tail, root, ext, hsplit, hext, hcut⟩

/-- If the last part has a dot, both scans find its last one, and the extension
of the path is that of its last part. -/
theorem cutsInTail_of_dot (hc : isSep c = true) (htail : ∀ b ∈ tail, isSep b = false)
    (hmem : 46 ∈ tail) : CutsInTail (head ++ c :: tail) := by
  have hsplit := ospathSplit_append (w := head) hc htail
  obtain ⟨root, d, ext, rfl, rfl, hext⟩ := Lib.exists_last_split (P := (· = 46)) ⟨46, hmem, rfl⟩
  have hsplitext : ospathSplitext (head ++ c :: (root ++ 46 :: ext)) =
      [head ++ c :: root, ext] := by
    rw [← List.cons_append, ← List.append_assoc, ospathSplitext_append hext]
  refine (cutsInTail_of_parts hsplit hsplitext).2 ⟨fun _ => ?_, fun b hb => ?_⟩
  · rw [ospathSplitext_append hext]
    rfl
  · exact htail b (List.mem_append_right _ (List.mem_cons_of_mem _ hb))

/-- If only what is in front of the last separator has a dot, the scan for the
dot passes over the separator: the extension of the path has one in it, and the
last part has none. -/
theorem not_cutsInTail_of_dot (hc : isSep c = true) (htail : ∀ b ∈ tail, isSep b = false)
    (hhead : 46 ∈ head) (hmem : 46 ∉ tail) : ¬CutsInTail (head ++ c :: tail) := by
  have hsplit := ospathSplit_append (w := head) hc htail
  obtain ⟨root, d, rest, rfl, rfl, hrest⟩ :=
    Lib.exists_last_split (P := (· = 46)) ⟨46, hhead, rfl⟩
  have hext : ∀ b ∈ rest ++ c :: tail, b ≠ 46 := by
    intro b hb
    rcases List.mem_append.1 hb with hb | hb
    · exact hrest b hb
    · rcases List.mem_cons.1 hb with rfl | hb
      · exact ne_dot_of_isSep hc
      · exact ne_of_mem_of_not_mem hb hmem
  have hsplitext : ospathSplitext ((root ++ 46 :: rest) ++ c :: tail) =
      [root, rest ++ c :: tail] := by
    rw [List.append_assoc, List.cons_append, ospathSplitext_append hext]
  intro hcut
  have hclean := ((cutsInTail_of_parts hsplit hsplitext).1 hcut).2
  exact Bool.eq_false_iff.1 (hclean c (List.mem_append_right _ (List.mem_cons_self ..))) hc

/-- Without a dot neither scan finds one, and both extensions are empty.  The
scan of `splitext` does not stop at the separator, so the directories must have
no dot either. -/
theorem cutsInTail_of_no_dot (hc : isSep c = true) (htail : ∀ b ∈ tail, isSep b = false)
    (hhead : 46 ∉ head) (hmem : 46 ∉ tail) : CutsInTail (head ++ c :: tail) := by
  have hsplit := ospathSplit_append (w := head) hc htail
  have hno : 46 ∉ head ++ c :: tail := by
    rw [List.mem_append, List.mem_cons, not_or, not_or]
    exact ⟨hhead, (ne_dot_of_isSep hc).symm, hmem⟩
  have hsplitext := ospathSplitext_of_none (List.append_ne_nil_of_right_ne_nil head
    (List.cons_ne_nil c tail)) hno
  refine (cutsInTail_of_parts hsplit hsplitext).2
    ⟨fun hne => ?_, fun b hb => absurd hb List.not_mem_nil⟩
  rw [ospathSplitext_of_none hne hmem]
  rfl

/-- The extension is cut in the last part exactly if a dot in front of the
separator has one behind it.  The three lemmas before are its cases. -/
theorem cutsInTail_append (hc : isSep c = true) (htail : ∀ b ∈ tail, isSep b = false) :
    CutsInTail (head ++ c :: tail) ↔ (46 ∈ head → 46 ∈ tail) := by
  by_cases hmem : 46 ∈ tail
  · exact iff_of_true (cutsInTail_of_dot hc htail hmem) fun _ => hmem
  by_cases hhead : 46 ∈ head
  · exact iff_of_false (not_cutsInTail_of_dot hc htail hhead hmem) fun hall => hmem (hall hhead)
  · exact iff_of_true (cutsInTail_of_no_dot hc htail hhead hmem) fun hdot => absurd hdot hhead

/-- **The extension is cut off in the last part exactly if** a path with a dot
in front of its last separator has one behind it. -/
theorem cutsInTail_iff (hsep : ∃ c ∈ s, isSep c = true) :
    CutsInTail s ↔ ∀ head c tail, s = head ++ c :: tail → isSep c = true →
      (∀ b ∈ tail, isSep b = false) → 46 ∈ head → 46 ∈ tail := by
  constructor
  · rintro hcut head c tail rfl hc htail
    exact (cutsInTail_append hc htail).1 hcut
  · intro hall
    obtain ⟨head, c, tail, rfl, hc, htail⟩ := (exists_lastWhere isSep s).resolve_left fun hnone =>
      hsep.elim fun c hc => Bool.eq_false_iff.1 (hnone c hc.1) hc.2
    exact (cutsInTail_append hc htail).2 (hall head c tail rfl hc htail)

/-- The hypothesis is satisfiable, for a path with a dot on both sides. -/
theorem cutsInTail_iff_script :
    CutsInTail (ascii "c:\\lib.d\\ffff.js") ↔ ∀ head c tail,
      ascii "c:\\lib.d\\ffff.js" = head ++ c :: tail → isSep c = true →
        (∀ b ∈ tail, isSep b = false) → 46 ∈ head → 46 ∈ tail :=
  cutsInTail_iff ⟨92, by decide, rfl⟩

/-- A dot in the name of a directory is taken for the start of the extension. -/
theorem ospathSplitext_directory :
    ospathSplitext (ascii "lib.d/ffff") = [ascii "lib", ascii "d/ffff"] ∧
      ¬CutsInTail (ascii "lib.d/ffff") := by
  have hsplitext : ospathSplitext (ascii "lib.d/ffff") = [ascii "lib", ascii "d/ffff"] := by decide
  refine ⟨hsplitext, ?_⟩
  rintro ⟨head, tail, root, ext, -, hext, -, hclean⟩
  obtain ⟨-, rfl⟩ : ascii "lib" = root ∧ ascii "d/ffff" = ext := by
    simpa using hsplitext.symm.trans hext
  exact absurd (hclean 47 (by decide)) (by decide)

end Extension

/-! ### The two parts, joined again -/

section Rejoin

variable {s w seps head tail prev rest : Bytes} {ks : List Bytes} {c : UInt8}

/-- What the scanner of `_helper_path_normpath` has of the component it is in. -/
def openAfter (prev s : Bytes) : Bytes :=
  s.foldl (fun prev c => if isSep c && prev ≠ [] then [] else prev ++ [c]) prev

/-- What is begun after two texts is what the second adds to what the first has
left. -/
theorem openAfter_append (prev s rest : Bytes) :
    openAfter prev (s ++ rest) = openAfter (openAfter prev s) rest := List.foldl_append

/-- One more byte: a separator closes the component that is begun, and begins
one if there is none. -/
theorem openAfter_concat (prev s : Bytes) (c : UInt8) : openAfter prev (s ++ [c]) =
    if isSep c && openAfter prev s ≠ [] then [] else openAfter prev s ++ [c] := by
  rw [openAfter_append]
  rfl

/-- The components that a first text completes are there whatever comes behind
it; only the one it has begun goes on.  So two paths with the same beginning are
compared by their ends. -/
theorem exists_splitComponents (prev s : Bytes) :
    ∃ ts, ∀ rest, splitComponents (s ++ rest) prev =
      ts ++ splitComponents rest (openAfter prev s) := by
  induction s generalizing prev with
  | nil => exact ⟨[], fun rest => rfl⟩
  | cons c s ih =>
    by_cases hcut : (isSep c && decide (prev ≠ [])) = true
    · obtain ⟨ts, hts⟩ := ih []
      refine ⟨cstr prev :: ts, fun rest => ?_⟩
      rw [List.cons_append, splitComponents, if_pos hcut, hts, openAfter, openAfter,
        List.foldl_cons, if_pos hcut, List.cons_append]
    · obtain ⟨ts, hts⟩ := ih (prev ++ [c])
      refine ⟨ts, fun rest => ?_⟩
      rw [List.cons_append, splitComponents, if_neg hcut, hts, openAfter, openAfter,
        List.foldl_cons, if_neg hcut]

/-- What is begun holds bytes of the text only, and so no NUL if the text has
none.  `cstr` leaves it alone then. -/
theorem not_mem_openAfter (hprev : 0 ∉ prev) (hs : 0 ∉ s) : 0 ∉ openAfter prev s := by
  induction s generalizing prev with
  | nil => exact hprev
  | cons c s ih =>
    rw [List.mem_cons, not_or] at hs
    rw [openAfter, List.foldl_cons]
    refine ih ?_ hs.2
    split_ifs
    · exact List.not_mem_nil
    · rw [List.mem_append, List.mem_singleton, not_or]
      exact ⟨hprev, hs.1⟩

/-- A text that does not end with a separator leaves a component begun: its last
byte is in it. -/
theorem openAfter_ne_nil (hw : w ≠ []) (hlast : ∀ c ∈ w.getLast?, isSep c = false) :
    openAfter prev w ≠ [] := by
  obtain ⟨init, c, rfl⟩ : ∃ init c, w = init ++ [c] :=
    ⟨_, _, (List.dropLast_append_getLast hw).symm⟩
  rw [openAfter_concat, hlast c (by simp), Bool.false_and, if_neg Bool.noConfusion]
  exact List.append_ne_nil_of_right_ne_nil _ (List.cons_ne_nil _ _)

/-- Separators close a component and open one in turn, so it is their parity
that says whether one is begun behind them. -/
theorem openAfter_seps (hseps : ∀ c ∈ seps, isSep c = true) :
    openAfter prev seps ≠ [] ↔ (Even seps.length ↔ prev ≠ []) := by
  induction seps generalizing prev with
  | nil => simp [openAfter]
  | cons c seps ih =>
    have hc := hseps c (List.mem_cons_self ..)
    have hrest := fun prev => @ih prev fun b hb => hseps b (List.mem_cons_of_mem _ hb)
    rw [openAfter, List.foldl_cons, hc, Bool.true_and, List.length_cons, Nat.even_add_one]
    by_cases hprev : prev = []
    · rw [if_neg (by simpa using hprev)]
      refine (hrest (prev ++ [c])).trans ?_
      simp [hprev]
    · rw [if_pos (by simpa using hprev)]
      refine (hrest []).trans ?_
      simp [hprev]

/-- Behind a separator a component is empty or only begun, by that separator.
This is all that the proofs need to know of what was in front. -/
theorem openAfter_concat_sep (hc : isSep c = true) (prev s : Bytes) :
    openAfter prev (s ++ [c]) = [] ∨ openAfter prev (s ++ [c]) = [c] := by
  rw [openAfter_concat, hc, Bool.true_and]
  by_cases hopen : openAfter prev s = []
  · rw [if_neg (by simpa using hopen), hopen]
    exact .inr rfl
  · rw [if_pos (by simpa using hopen)]
    exact .inl rfl

/-- A name without separators is one component with what was begun before it; if
both are empty there is none. -/
theorem splitComponents_name (htail : ∀ b ∈ tail, isSep b = false) (hnul : 0 ∉ prev ++ tail) :
    splitComponents tail prev = if prev ++ tail = [] then [] else [prev ++ tail] := by
  have hscan := splitComponents_append htail [] prev
  rw [List.append_nil] at hscan
  rw [hscan, splitComponents, Lib.cstr_of_not_mem hnul]
  by_cases hnil : prev ++ tail = []
  · rw [if_neg (not_not.2 hnil), if_pos hnil]
  · rw [if_pos hnil, if_neg hnil]

/-- A separator completes the component that was begun, or begins one, to which
the name behind it is added: this is how the root is told from a separator
between names. -/
theorem splitComponents_sep (hc : isSep c = true) (hprev : 0 ∉ prev) :
    splitComponents (c :: tail) prev =
      if prev = [] then splitComponents tail [c] else prev :: splitComponents tail [] := by
  rw [splitComponents, hc, Bool.true_and, Lib.cstr_of_not_mem hprev]
  by_cases hnil : prev = []
  · rw [if_neg (by simpa using hnil), if_pos hnil, hnil, List.nil_append]
  · rw [if_pos (by simpa using hnil), if_neg hnil]

/-! ### The lengths of the results -/

/-- Components, joined by the separator. -/
def path (ks : List Bytes) : Bytes := [splitChar].intercalate ks

/-- A path of more than one component has a separator behind the first. -/
theorem path_cons (k : Bytes) {ks : List Bytes} (hks : ks ≠ []) :
    path (k :: ks) = k ++ [splitChar] ++ path ks := List.intercalate_cons_of_ne_nil hks

/-- A path of one component is that component. -/
theorem path_singleton (k : Bytes) : path [k] = k := List.intercalate_singleton ..

/-- One more component adds its length and, if it is not the first, a separator
in front of it. -/
theorem length_path_concat (ks : List Bytes) (t : Bytes) :
    (path (ks ++ [t])).length = (if ks = [] then 0 else (path ks).length + 1) + t.length := by
  induction ks with
  | nil => simp [path]
  | cons k ks ih =>
    have hne : ks ++ [t] ≠ [] := List.append_ne_nil_of_right_ne_nil _ (List.cons_ne_nil _ _)
    rw [List.cons_append, path_cons k hne, List.length_append, ih, if_neg (List.cons_ne_nil _ _),
      List.length_append, List.length_singleton]
    rcases eq_or_ne ks [] with rfl | hks
    · rw [if_pos rfl, path, List.intercalate_singleton]
      omega
    · rw [if_neg hks, path_cons k hks]
      simp only [List.length_append, List.length_singleton]
      omega

/-- Without its last component a path is not longer.  This is what `..` does to
it. -/
theorem length_path_dropLast (ks : List Bytes) : (path ks.dropLast).length ≤ (path ks).length := by
  rcases eq_or_ne ks [] with rfl | hks
  · exact le_rfl
  · obtain ⟨init, t, rfl⟩ : ∃ init t, ks = init ++ [t] :=
      ⟨_, _, (List.dropLast_append_getLast hks).symm⟩
    rw [List.dropLast_concat, length_path_concat]
    split_ifs with hinit
    · rw [hinit]
      exact Nat.zero_le _
    · omega

/-- A name adds no more than its length and a separator; a dot adds nothing, and
`..` takes a component away. -/
theorem length_path_resolveStep (ks : List Bytes) (t : Bytes) :
    (path (resolveStep ks t)).length ≤ (path (ks ++ [t])).length := by
  have hgrow : (path ks).length ≤ (path (ks ++ [t])).length := by
    rw [length_path_concat]
    split_ifs with hks
    · rw [hks]
      exact Nat.zero_le _
    · omega
  unfold resolveStep
  split_ifs
  · exact (length_path_dropLast ks).trans hgrow
  · exact hgrow
  · exact le_rfl

/-- A component with a separator in front is a name: neither `.` nor `..` begins
with one. -/
theorem resolveStep_sep (hc : isSep c = true) (ks : List Bytes) (t : Bytes) :
    resolveStep ks (c :: t) = ks ++ [c :: t] := by
  have hdot : ∀ u, c :: t ≠ 46 :: u := by
    rintro u h
    obtain rfl := (List.cons.inj h).1
    cases hc
  exact (if_neg (hdot [46])).trans (if_neg (hdot []))

/-! ### The law -/

/-- The two parts of a path, joined again, are normalised to the same, and the
first one is its directory. -/
def SplitRejoins (s : Bytes) : Prop :=
  ∃ head tail, ospathSplit s = [head, tail] ∧
    (ospathJoin [head, tail]).map ospathNormpath = some (ospathNormpath s) ∧
    ospathDirname s = head

/-- What is left of a path whose first part has been scanned: the components it
has completed are resolved to some list, and the rest is resolved onto that. -/
theorem ospathNormpath_append (head : Bytes) : ∃ ks, ∀ rest, ospathNormpath (head ++ rest) =
    path ((splitComponents rest (openAfter [] head)).foldl resolveStep ks) := by
  obtain ⟨ts, hts⟩ := exists_splitComponents [] head
  refine ⟨ts.foldl resolveStep [], fun rest => ?_⟩
  rw [ospathNormpath, helperPathNormpath, hts, List.foldl_append, path]

/-- `split` gives the two parts at the last separator, and `join` puts a
separator between them, so to rejoin is to be normalised as the two are. -/
theorem splitRejoins_append (hnul : 0 ∉ head ++ c :: tail) (hc : isSep c = true)
    (htail : ∀ b ∈ tail, isSep b = false) :
    SplitRejoins (head ++ c :: tail) ↔
      ospathNormpath (joined head tail) = ospathNormpath (head ++ c :: tail) := by
  have hsplit := ospathSplit_append (w := head) hc htail
  rw [List.mem_append, List.mem_cons, not_or, not_or] at hnul
  have hrel : ¬isSep (byteAt tail 0) = true := by
    rcases tail with _ | ⟨d, tail⟩
    · decide
    · exact Bool.eq_false_iff.1 (htail d (List.mem_cons_self ..))
  have hjoin := ospathJoin_eq_joined hnul.1 hnul.2.2 hrel
  constructor
  · rintro ⟨head', tail', hsplit', hnorm, -⟩
    obtain ⟨rfl, rfl⟩ : head = head' ∧ tail = tail' := by
      simpa using hsplit.symm.trans hsplit'
    rw [hjoin] at hnorm
    exact Option.some.inj hnorm
  · intro hnorm
    refine ⟨head, tail, hsplit, ?_, ospathDirname_append hc htail⟩
    rw [hjoin, Option.map_some, hnorm]

/-- `join` adds nothing for an empty second part, not even a separator. -/
theorem joined_nil_right (w : Bytes) : joined w [] = w := if_pos rfl

/-- Behind the root, or a separator that stays, the name alone is shorter than
the name with the separator, so the two paths differ in length. -/
theorem not_rejoins_of_shorter {ks : List Bytes} (hc : isSep c = true) :
    path (resolveStep ks tail) ≠ path (resolveStep ks (c :: tail)) := by
  intro heq
  have hle := length_path_resolveStep ks tail
  rw [heq, resolveStep_sep hc, length_path_concat, length_path_concat, List.length_cons] at hle
  omega

/-- A name behind a separator that has another one in front is not the name
alone: one of the two paths has that separator as a component of its own. -/
theorem not_rejoins_of_begun {ks : List Bytes} {d : UInt8} (hd : isSep d = true)
    (htail : tail ≠ []) :
    path (resolveStep ks (d :: tail)) ≠ path (resolveStep (resolveStep ks [d]) tail) := by
  intro heq
  have hpos : 0 < tail.length := List.length_pos_of_ne_nil htail
  have hbegun : (path (ks ++ [[d]])).length < (path (ks ++ [d :: tail])).length := by
    rw [length_path_concat, length_path_concat]
    simp only [List.length_cons, List.length_nil]
    omega
  have hlen := congrArg List.length heq
  rw [resolveStep_sep hd, resolveStep_sep hd] at hlen
  unfold resolveStep at hlen
  split_ifs at hlen with hup hdot
  · -- `..` takes the separator back
    have hle := length_path_dropLast (ks ++ [[d]])
    omega
  · omega
  · rw [length_path_concat (ks ++ [[d]]), if_neg (List.append_ne_nil_of_right_ne_nil _
      (List.cons_ne_nil _ _)), length_path_concat, length_path_concat] at hlen
    simp only [List.length_cons, List.length_nil] at hlen
    omega

/-- The path, cut at its last separators, is put together again. -/
def Rejoins (w seps tail : Bytes) : Prop :=
  if tail = [] then Odd seps.length ↔ w ≠ [] else w ≠ [] ∧ seps.length = 1

/-- Without a last part, one separator is all that is missing.  It only closes a
component, and is not seen in the result, exactly if one is begun. -/
theorem rejoins_nil (hc : isSep c = true) (hopenNul : 0 ∉ prev) (ks : List Bytes) :
    path ((splitComponents [] prev).foldl resolveStep ks) =
      path ((splitComponents [c] prev).foldl resolveStep ks) ↔ prev ≠ [] := by
  have hnil : ∀ q : Bytes, 0 ∉ q → splitComponents [] q = if q = [] then [] else [q] := by
    intro q hq
    have hname : splitComponents [] q = if q ++ [] = [] then [] else [q ++ []] :=
      splitComponents_name (fun b hb => absurd hb List.not_mem_nil) (by rwa [List.append_nil])
    rwa [List.append_nil] at hname
  have hc0 : (0 : UInt8) ∉ [c] := by
    rw [List.mem_singleton]
    rintro rfl
    cases hc
  rw [splitComponents_sep hc hopenNul, hnil prev hopenNul, hnil [] List.not_mem_nil, hnil [c] hc0]
  by_cases hprev : prev = []
  · -- the separator is a component of its own
    refine iff_of_false (fun heq => ?_) (not_not.2 hprev)
    rw [if_pos hprev, if_pos hprev, if_neg (List.cons_ne_nil _ _), List.foldl_nil, List.foldl_cons,
      List.foldl_nil, resolveStep_sep hc] at heq
    have hlen := congrArg List.length heq
    rw [length_path_concat, List.length_singleton] at hlen
    split_ifs at hlen with hks
    · rw [hks] at hlen
      exact absurd hlen (by decide)
    · omega
  · rw [if_neg hprev, if_neg hprev]
    exact iff_of_true rfl hprev

/-- With a last part behind two separators, the second one is lost: the
component that they leave begun is empty or a separator, and in both cases the
two results differ. -/
theorem rejoins_cons (hc : isSep c = true) (hnul : 0 ∉ tail) (htail : ∀ b ∈ tail, isSep b = false)
    (hne : tail ≠ []) {d : UInt8} (hd : isSep d = true) (hprev : prev = [] ∨ prev = [d])
    (ks : List Bytes) :
    path ((splitComponents tail prev).foldl resolveStep ks) ≠
      path ((splitComponents (c :: tail) prev).foldl resolveStep ks) := by
  have hname : ∀ q : Bytes, 0 ∉ q → splitComponents tail q = [q ++ tail] := by
    intro q hq
    rw [splitComponents_name htail (by rw [List.mem_append, not_or]; exact ⟨hq, hnul⟩),
      if_neg (List.append_ne_nil_of_right_ne_nil _ hne)]
  have hsep0 : ∀ {b : UInt8}, isSep b = true → (0 : UInt8) ∉ [b] := by
    rintro b hb hmem
    rw [← List.mem_singleton.1 hmem] at hb
    cases hb
  rcases hprev with rfl | rfl
  · rw [splitComponents_sep hc List.not_mem_nil, if_pos rfl, hname [] List.not_mem_nil,
      hname [c] (hsep0 hc)]
    exact not_rejoins_of_shorter hc
  · rw [splitComponents_sep hc (hsep0 hd), if_neg (List.cons_ne_nil _ _), hname [d] (hsep0 hd),
      hname [] List.not_mem_nil]
    exact not_rejoins_of_begun hd hne

/-- Without a last part, the path loses the separator that closes a component,
and this is no loss exactly if there is a component to close. -/
theorem normpath_dir_iff (hc : isSep c = true) (hnul : 0 ∉ head) :
    ospathNormpath (joined head []) = ospathNormpath (head ++ [c]) ↔ openAfter [] head ≠ [] := by
  obtain ⟨ks, hks⟩ := ospathNormpath_append head
  have hhead := hks []
  rw [List.append_nil] at hhead
  rw [joined_nil_right, hhead, hks]
  exact rejoins_nil hc (not_mem_openAfter List.not_mem_nil hnul) ks

/-- The root is lost: `split("/a")` has an empty first part, and the name alone
is no absolute path. -/
theorem normpath_root_ne (hc : isSep c = true) (hnul : 0 ∉ tail)
    (htail : ∀ b ∈ tail, isSep b = false) (hne : tail ≠ []) :
    ospathNormpath (joined [] tail) ≠ ospathNormpath (c :: tail) := by
  obtain ⟨ks, hks⟩ := ospathNormpath_append []
  have hrest : ∀ rest, ospathNormpath rest =
      path ((splitComponents rest []).foldl resolveStep ks) := hks
  rw [joined_nil_left, hrest, hrest]
  exact rejoins_cons hc hnul htail hne hc (.inl rfl) ks

/-- One of two separators is lost, as `split` drops the last one and `join` sees
the other and adds none. -/
theorem normpath_seps_ne (hc : isSep c = true) (hnul : 0 ∉ tail)
    (htail : ∀ b ∈ tail, isSep b = false) (hne : tail ≠ []) {d : UInt8} (hd : isSep d = true)
    (w : Bytes) :
    ospathNormpath (joined (w ++ [d]) tail) ≠ ospathNormpath ((w ++ [d]) ++ c :: tail) := by
  obtain ⟨ks, hks⟩ := ospathNormpath_append (w ++ [d])
  have hjoined : joined (w ++ [d]) tail = (w ++ [d]) ++ tail := by
    unfold joined
    rw [if_neg hne, if_neg (List.append_ne_nil_of_right_ne_nil _ (List.cons_ne_nil _ _)),
      Lib.byteAt_concat, if_pos hd]
  rw [hjoined, hks, hks]
  exact rejoins_cons hc hnul htail hne hd (openAfter_concat_sep hd [] w) ks

/-- One separator behind a name is what `join` puts there, so the path is the
same up to which of the two separators it is, and that is not seen in the
result. -/
theorem normpath_name_eq (hc : isSep c = true) (hnul : 0 ∉ w) (hne : tail ≠ []) (hwne : w ≠ [])
    (hw : ∀ c ∈ w.getLast?, isSep c = false) :
    ospathNormpath (joined w tail) = ospathNormpath (w ++ c :: tail) := by
  obtain ⟨ks, hks⟩ := ospathNormpath_append w
  have hopen : openAfter [] w ≠ [] := openAfter_ne_nil hwne hw
  have hopenNul : 0 ∉ openAfter [] w := not_mem_openAfter List.not_mem_nil hnul
  have hjoined : joined w tail = w ++ splitChar :: tail := by
    obtain ⟨init, d, rfl⟩ : ∃ init d, w = init ++ [d] :=
      ⟨_, _, (List.dropLast_append_getLast hwne).symm⟩
    unfold joined
    rw [if_neg hne, if_neg hwne, Lib.byteAt_concat, hw d List.getLast?_concat,
      if_neg Bool.noConfusion]
  rw [hjoined, hks, hks, splitComponents_sep hc hopenNul, splitComponents_sep (by rfl) hopenNul,
    if_neg hopen, if_neg hopen]

/-- A path is cut into what is in front of its last separators, these, and the
last part.  The cases are whether the first and the last are empty, and whether
there is one separator or more. -/
theorem splitRejoins_parts (hnul : 0 ∉ w ++ seps ++ tail) (hseps : ∀ c ∈ seps, isSep c = true)
    (hne : seps ≠ []) (hw : ∀ c ∈ w.getLast?, isSep c = false)
    (htail : ∀ b ∈ tail, isSep b = false) :
    SplitRejoins (w ++ seps ++ tail) ↔ Rejoins w seps tail := by
  obtain ⟨before, c, rfl⟩ : ∃ before c, seps = before ++ [c] :=
    ⟨_, _, (List.dropLast_append_getLast hne).symm⟩
  obtain ⟨hbefore, hc⟩ := List.forall_mem_append.1 hseps
  have hc : isSep c = true := hc c (List.mem_singleton_self _)
  have hparts : w ++ (before ++ [c]) ++ tail = (w ++ before) ++ c :: tail := by
    simp only [List.append_assoc, List.singleton_append]
  rw [hparts] at hnul ⊢
  rw [splitRejoins_append hnul hc htail]
  rw [List.mem_append, List.mem_cons, not_or, not_or] at hnul
  obtain ⟨hheadNul, -, htailNul⟩ := hnul
  unfold Rejoins
  rw [List.length_append, List.length_singleton]
  by_cases htailNil : tail = []
  · -- whether the first part ends inside of a component
    have hopen : openAfter [] (w ++ before) ≠ [] ↔ (Odd (before.length + 1) ↔ w ≠ []) := by
      rw [openAfter_append, openAfter_seps hbefore, Nat.odd_add_one, Nat.not_odd_iff_even]
      refine iff_congr Iff.rfl ?_
      rcases eq_or_ne w [] with rfl | hwne
      · exact Iff.rfl
      · exact iff_of_true (openAfter_ne_nil hwne hw) hwne
    rw [if_pos htailNil, htailNil, normpath_dir_iff hc hheadNul, hopen]
  rw [if_neg htailNil]
  rcases List.eq_nil_or_concat' before with rfl | ⟨init, d, rfl⟩
  · rw [List.append_nil] at hheadNul ⊢
    rcases eq_or_ne w [] with rfl | hwne
    · exact iff_of_false (normpath_root_ne hc htailNul htail htailNil) fun hcond => hcond.1 rfl
    · exact iff_of_true (normpath_name_eq hc hheadNul htailNil hwne hw) ⟨hwne, rfl⟩
  · have hd : isSep d = true := hbefore d (List.mem_append_right _ (List.mem_singleton_self _))
    rw [← List.append_assoc]
    refine iff_of_false (normpath_seps_ne hc htailNul htail htailNil hd _) fun hcond => ?_
    have hlen := hcond.2
    rw [List.length_append, List.length_singleton] at hlen
    omega

/-- A path is cut at its last separators, or has none.  All the separators that
stand together go to the middle, so neither neighbour is one. -/
theorem exists_lastSeps (s : Bytes) : (∀ b ∈ s, isSep b = false) ∨
    ∃ w seps tail, s = w ++ seps ++ tail ∧ (∀ c ∈ seps, isSep c = true) ∧ seps ≠ [] ∧
      (∀ c ∈ w.getLast?, isSep c = false) ∧ ∀ b ∈ tail, isSep b = false := by
  rcases exists_lastWhere isSep s with hnone | ⟨w, c, tail, rfl, hc, htail⟩
  · exact .inl hnone
  · refine .inr ⟨w.rdropWhile isSep, w.rtakeWhile isSep ++ [c], tail, ?_, ?_, ?_, ?_, htail⟩
    · rw [← List.append_assoc, List.rdropWhile_append_rtakeWhile, List.append_assoc,
        List.singleton_append]
    · intro b hb
      rcases List.mem_append.1 hb with hb | hb
      · exact List.mem_rtakeWhile_imp hb
      · rwa [List.mem_singleton.1 hb]
    · exact List.append_ne_nil_of_right_ne_nil _ (List.cons_ne_nil _ _)
    · intro b hb
      obtain ⟨hrest, rfl⟩ := List.mem_getLast?_eq_getLast hb
      exact Bool.eq_false_iff.2 (List.rdropWhile_last_not isSep w hrest)

/-- **A path is put together again from its parts exactly if** it has no
separator, or its last separators are as many as `join` and `normpath` make up
for. -/
theorem splitRejoins_iff (hnul : 0 ∉ s) (hne : s ≠ []) :
    SplitRejoins s ↔ ∀ w seps tail, s = w ++ seps ++ tail → (∀ c ∈ seps, isSep c = true) →
      seps ≠ [] → (∀ c ∈ w.getLast?, isSep c = false) → (∀ b ∈ tail, isSep b = false) →
      Rejoins w seps tail := by
  constructor
  · rintro hsplit w seps tail rfl hseps hsepsNe hw htail
    exact (splitRejoins_parts hnul hseps hsepsNe hw htail).1 hsplit
  · intro hall
    rcases exists_lastSeps s with hnone | ⟨w, seps, tail, rfl, hseps, hsepsNe, hw, htail⟩
    · refine ⟨s, [], ospathSplit_of_none hne hnone, ?_, ospathDirname_of_none hnone⟩
      rw [ospathJoin_eq_joined hnul List.not_mem_nil (by decide), joined_nil_right, Option.map_some]
    · exact (splitRejoins_parts hnul hseps hsepsNe hw htail).2
        (hall w seps tail rfl hseps hsepsNe hw htail)

/-- The hypotheses are satisfiable, for a path that ends with a separator. -/
theorem splitRejoins_iff_trailing :
    SplitRejoins (ascii "C:/") ↔ ∀ w seps tail, ascii "C:/" = w ++ seps ++ tail →
      (∀ c ∈ seps, isSep c = true) → seps ≠ [] → (∀ c ∈ w.getLast?, isSep c = false) →
      (∀ b ∈ tail, isSep b = false) → Rejoins w seps tail :=
  splitRejoins_iff (by decide) (by decide)

/-- The root is lost.  The head is what stands before the last separator, and
here that is nothing. -/
theorem ospathSplit_root :
    ospathSplit (ascii "/a") = [[], ascii "a"] ∧ ¬SplitRejoins (ascii "/a") := by
  have hsplit : ospathSplit (ascii "/a") = [[], ascii "a"] := by decide
  refine ⟨hsplit, ?_⟩
  rintro ⟨head, tail, hparts, hnorm, -⟩
  obtain ⟨rfl, rfl⟩ : [] = head ∧ ascii "a" = tail := by
    simpa using hsplit.symm.trans hparts
  exact absurd hnorm (by decide)

end Rejoin

end Pylib
end Dukserver
