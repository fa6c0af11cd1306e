/-
# Absolute paths

`duktape/dukpylib.c`, `_ospath_abspath` (lines 1834-1872), which joins a relative path to the
working directory (`_ospath_join`, lines 1586-1646) and normalises the result.  What it
should give is the lexical resolution of the path: its names from the left, where `..` takes
the last one back and `.` is nothing.

The normaliser resolves components instead of names, and the first component holds the
separator that makes the path absolute.  `..` takes it back like any other, and behind a
doubled separator it is a name.  `ospathAbspath_iff` says when the two agree all the same.
-/

import Dukserver.Pylib.Normpath

namespace Dukserver
namespace Pylib

open Lib (Bytes ascii byteAt cstr isalpha)
open Lib.Backtrack

/-- The names of a path: its pieces but the empty ones. -/
def names (s : Bytes) : List Bytes := (pieces s).filter fun p => decide (p ≠ [])

/-- The lexical resolution of names, from the root. -/
def lexical (ps : List Bytes) : List Bytes := run (ps.map tokenMove)

/-- The absolute path starts with a separator, and its names are the lexical
resolution. -/
def AbspathOk (cwd s : Bytes) : Prop :=
  ∃ p, ospathAbspath (some cwd) s = some p ∧ isSep (byteAt p 0) = true ∧
    names p = lexical (if isSep (byteAt s 0) then names s else names cwd ++ names s)

/-- Two paths as `_ospath_join` writes them, the second one relative. -/
def joined (cwd s : Bytes) : Bytes :=
  if s = [] then cwd
  else if cwd = [] then s
  else if isSep (byteAt cwd (cwd.length - 1)) then cwd ++ s
  else cwd ++ splitChar :: s

/-- The path that is normalised. -/
def basePath (cwd s : Bytes) : Bytes := if isSep (byteAt s 0) then s else joined cwd s

/-- What the text of a component does in the lexical resolution. -/
def Component.lexMove (k : Component) : Move Bytes :=
  if k.text = [] then .skip else tokenMove k.text

/-- A component that is a name for both. -/
def Component.IsName (k : Component) : Prop := k.text ≠ [] ∧ ¬IsDots k.text

/-- The first component that is not taken back has a separator in front. -/
def StaysAbsolute (ks : List Component) : Prop :=
  ∃ before k after, ks = before ++ k :: after ∧ k.sep = true ∧
    ¬Overdrawn (after.map Component.move) ∧
    ∀ b₁ b b₂ x, before = b₁ ++ b :: b₂ → b.move = .push x →
      Overdrawn ((b₂ ++ k :: after).map Component.move)

/-- Each name that the lexical resolution takes back is taken back. -/
def NamesTakenBack (ks : List Component) : Prop :=
  ∀ before k after, ks = before ++ k :: after → k.IsName →
    Overdrawn (after.map Component.lexMove) → Overdrawn (after.map Component.move)

section Join

variable {cwd s w t : Bytes} {n : ℕ}

/-- Writing behind what is written appends to it, and leaves zeros behind.  So
the buffer stays a string, which the next call finds the end of. -/
theorem copyTo_append (w t : Bytes) (n : ℕ) :
    ∃ m, copyTo (w ++ List.replicate n 0) w.length t = w ++ t ++ List.replicate m 0 := by
  refine ⟨n - t.length, ?_⟩
  rw [copyTo, List.take_left, List.drop_append, List.drop_eq_nil_of_le (by omega),
    List.nil_append, List.drop_replicate]
  congr 2
  omega

/-- The first path is taken as it is. -/
theorem joined_nil_left (s : Bytes) : joined [] s = s := by
  unfold joined
  by_cases hs : s = []
  · rw [if_pos hs, hs]
  · rw [if_neg hs, if_pos rfl]

/-- A pass of the loop of `_ospath_join`, with the first path or a relative one:
it writes behind what is there, with a separator if there is none. -/
theorem joinStep_joined (hs : w = [] ∨ ¬isSep (byteAt s 0) = true) (n : ℕ) :
    ∃ m, joinStep (w ++ List.replicate n 0, w.length) s =
      (joined w s ++ List.replicate m 0, (joined w s).length) := by
  unfold joinStep joined
  by_cases hnil : s = []
  · rw [if_pos hnil, if_pos (by rw [hnil]; exact le_rfl)]
    exact ⟨n, rfl⟩
  rw [if_neg hnil, if_neg (by simpa using hnil)]
  by_cases hw : w = []
  · obtain ⟨m, hm⟩ := copyTo_append [] s n
    rw [if_pos hw, if_pos (by rw [hw]; rfl), hw]
    exact ⟨m, congrArg (·, s.length) hm⟩
  have hlen : 0 < w.length := List.length_pos_of_ne_nil hw
  have hlast : byteAt (w ++ List.replicate n 0) (w.length - 1) = byteAt w (w.length - 1) := by
    rw [byteAt, byteAt, List.getD_eq_getElem?_getD, List.getElem?_append_left (by omega),
      List.getD_eq_getElem?_getD]
  rw [if_neg hw, if_neg (by simpa using hw), if_neg (hs.resolve_left hw)]
  simp only
  rw [hlast]
  split_ifs with hsep
  · obtain ⟨m, hm⟩ := copyTo_append w s n
    exact ⟨m, by rw [hm, List.length_append]⟩
  · obtain ⟨m₁, hm₁⟩ := copyTo_append w [splitChar] n
    obtain ⟨m, hm⟩ := copyTo_append (w ++ [splitChar]) s m₁
    rw [List.length_append, List.length_singleton] at hm
    refine ⟨m, ?_⟩
    simp only
    rw [hm₁, hm, List.append_assoc w, List.singleton_append, List.length_append, List.length_cons,
      Nat.add_assoc, Nat.add_comm 1]

/-- The buffer is filled with zeros, so it reads up to what was written. -/
theorem cstr_append_replicate (hw : 0 ∉ w) (n : ℕ) : cstr (w ++ List.replicate n 0) = w := by
  have hzero : cstr (List.replicate n 0) = [] := by
    cases n <;> rfl
  rw [Lib.cstr_append_of_not_mem _ hw, hzero, List.append_nil]

/-- A joined path has no NUL if its parts have none.  What stands between the
two is a separator. -/
theorem not_mem_joined (hcwd : 0 ∉ cwd) (hs : 0 ∉ s) : 0 ∉ joined cwd s := by
  unfold joined
  split_ifs
  · exact hcwd
  · exact hs
  · rw [List.mem_append, not_or]
    exact ⟨hcwd, hs⟩
  · rw [List.mem_append, List.mem_cons, not_or, not_or]
    exact ⟨hcwd, by decide, hs⟩

/-- **What `_ospath_join` gives** for a directory and a relative path.  An
absolute one would start again at the buffer's first byte. -/
theorem ospathJoin_eq_joined (hcwd : 0 ∉ cwd) (hs : 0 ∉ s) (hrel : ¬isSep (byteAt s 0) = true) :
    ospathJoin [cwd, s] = some (joined cwd s) := by
  unfold ospathJoin
  have hpos : ¬([cwd, s].map fun u => u.length + 1).sum ≤ 0 := by
    simp only [List.map_cons, List.sum_cons]
    omega
  rw [if_neg hpos, List.foldl_cons, List.foldl_cons, List.foldl_nil]
  obtain ⟨m₁, hm₁⟩ := joinStep_joined (w := []) (s := cwd) (.inl rfl)
    (([cwd, s].map fun u => u.length + 1).sum + [cwd, s].length + 1)
  obtain ⟨m, hm⟩ := joinStep_joined (w := cwd) (.inr hrel) m₁
  rw [joined_nil_left, List.nil_append, List.length_nil] at hm₁
  rw [hm₁, hm, cstr_append_replicate (not_mem_joined hcwd hs)]

/-- The names of joined paths are the names of both, as a separator stands
between them. -/
theorem names_joined (cwd s : Bytes) : names (joined cwd s) = names cwd ++ names s := by
  unfold joined names
  split_ifs with hs hcwd hsep
  · rw [hs]
    simp [pieces]
  · rw [hcwd]
    simp [pieces]
  · -- the separator is the last byte of the directory
    obtain ⟨init, c, rfl⟩ : ∃ init c, cwd = init ++ [c] :=
      ⟨_, _, (List.dropLast_append_getLast hcwd).symm⟩
    have hc : isSep c = true := by
      rwa [Lib.byteAt_concat] at hsep
    rw [List.append_assoc, List.singleton_append, pieces_append_cons _ _ hc,
      pieces_append_cons _ _ hc, List.filter_append, List.filter_append]
    simp [pieces]
  · rw [pieces_append_cons _ _ (by decide), List.filter_append]

end Join

/-! ### The two resolutions -/

section Resolve

variable {ks : List Component} {k : Component} {s : Bytes}

/-- What a component does in the code and in the lexical resolution.  They
differ for a component with a separator of its own: it is always pushed. -/
theorem move_cases (k : Component) :
    (k.move = .pop ∧ k.lexMove = .pop ∧ k.sep = false ∧ ¬k.IsName) ∨
    (k.move = .skip ∧ k.lexMove = .skip ∧ k.sep = false ∧ ¬k.IsName) ∨
    (k.move = .push k ∧ k.lexMove = .push k.text ∧ k.IsName) ∨
    (k.move = .push k ∧ (k.lexMove = .skip ∨ k.lexMove = .pop) ∧ ¬k.IsName ∧
      (k.text = [] ∨ k.sep = true ∧ IsDots k.text)) := by
  obtain ⟨sep, text⟩ := k
  by_cases hnil : text = []
  · have hup : (⟨sep, text⟩ : Component) ≠ ⟨false, ascii ".."⟩ := by
      rw [hnil]
      exact fun h => absurd (Component.mk.inj h).2 (by decide)
    have hdot : (⟨sep, text⟩ : Component) ≠ ⟨false, ascii "."⟩ := by
      rw [hnil]
      exact fun h => absurd (Component.mk.inj h).2 (by decide)
    refine .inr (.inr (.inr ⟨?_, .inl (if_pos hnil), fun h => h.1 hnil, .inl hnil⟩))
    unfold Component.move
    rw [if_neg hup, if_neg hdot]
  have hlex : Component.lexMove ⟨sep, text⟩ = tokenMove text := if_neg hnil
  rw [hlex]
  by_cases hdots : IsDots text
  · have hname : ¬Component.IsName ⟨sep, text⟩ := fun h => h.2 hdots
    cases sep with
    | true =>
      refine .inr (.inr (.inr ⟨move_of_sep rfl, ?_, hname, .inr ⟨rfl, hdots⟩⟩))
      rcases hdots with rfl | rfl
      · exact .inl rfl
      · exact .inr rfl
    | false =>
      rcases hdots with rfl | rfl
      · exact .inr (.inl ⟨rfl, rfl, rfl, hname⟩)
      · exact .inl ⟨rfl, rfl, rfl, hname⟩
  · rw [IsDots, not_or] at hdots
    refine .inr (.inr (.inl ⟨?_, ?_, hnil, not_or.2 hdots⟩))
    · unfold Component.move
      rw [if_neg fun h => hdots.2 (Component.mk.inj h).2,
        if_neg fun h => hdots.1 (Component.mk.inj h).2]
    · unfold tokenMove
      rw [if_neg hdots.2, if_neg hdots.1]

/-- The code takes back no more than the lexical resolution: it pushes whenever
that does, and pops only when that does. -/
theorem taken_move_le (ks : List Component) :
    taken (ks.map Component.move) ≤ taken (ks.map Component.lexMove) := by
  induction ks with
  | nil => exact le_rfl
  | cons k ks ih =>
    rw [List.map_cons, List.map_cons]
    rcases move_cases k with ⟨h, hlex, -⟩ | ⟨h, hlex, -⟩ | ⟨h, hlex, -⟩ | ⟨h, hlex | hlex, -⟩ <;>
      rw [h, hlex, taken, taken] <;> omega

/-- The texts of the components that are kept, but the empty ones. -/
def keptNames (ks : List Component) : List Bytes :=
  ((survivors (ks.map Component.move)).map Component.text).filter fun p => decide (p ≠ [])

/-- A component that is pushed is kept if nothing behind takes it back, and
gives a name if it has one. -/
theorem keptNames_cons_push (h : k.move = .push k) :
    keptNames (k :: ks) = if taken (ks.map Component.move) = 0 ∧ k.text ≠ [] then
      k.text :: keptNames ks else keptNames ks := by
  unfold keptNames
  rw [List.map_cons, h, survivors]
  by_cases htaken : taken (ks.map Component.move) = 0
  · rw [if_pos htaken, List.map_cons, List.filter_cons]
    by_cases hnil : k.text = []
    · rw [if_neg (by simpa using hnil), if_neg fun h => h.2 hnil]
    · rw [if_pos (by simpa using hnil), if_pos ⟨htaken, hnil⟩]
  · rw [if_neg htaken, if_neg fun h => htaken h.1]

/-- One that is not pushed gives none. -/
theorem keptNames_cons (h : k.move = .pop ∨ k.move = .skip) :
    keptNames (k :: ks) = keptNames ks := by
  unfold keptNames
  rw [List.map_cons, survivors_cons h.symm]

/-- What is left of the lexical resolution is left in the code, which takes back
less. -/
theorem lexical_sublist_keptNames (ks : List Component) :
    List.Sublist (survivors (ks.map Component.lexMove)) (keptNames ks) := by
  induction ks with
  | nil => exact List.Sublist.refl _
  | cons k ks ih =>
    rw [List.map_cons]
    rcases move_cases k with ⟨h, hlex, -⟩ | ⟨h, hlex, -⟩ | ⟨h, hlex, hname⟩ | ⟨h, hlex, -⟩
    · rwa [keptNames_cons (.inl h), hlex, survivors]
    · rwa [keptNames_cons (.inr h), hlex, survivors]
    · rw [keptNames_cons_push h, hlex, survivors]
      have htaken := taken_move_le ks
      by_cases hzero : taken (ks.map Component.lexMove) = 0
      · rw [if_pos hzero, if_pos ⟨by omega, hname.1⟩]
        exact ih.cons_cons _
      · rw [if_neg hzero]
        split_ifs
        · exact ih.cons _
        · exact ih
    · rw [keptNames_cons_push h, survivors_cons hlex]
      split_ifs
      · exact ih.cons _
      · exact ih

/-- A name more than the lexical resolution has: the two lists have not the same
length. -/
theorem cons_keptNames_ne (p : Bytes) (ks : List Component) :
    p :: keptNames ks ≠ survivors (ks.map Component.lexMove) := by
  intro h
  have hlen := (lexical_sublist_keptNames ks).length_le
  rw [← h, List.length_cons] at hlen
  omega

/-- **The code keeps the names of the lexical resolution exactly if** it takes
back each `.` and `..` with a separator that belongs to it, and each name that
the resolution takes back. -/
theorem keptNames_eq_iff (ks : List Component) :
    keptNames ks = survivors (ks.map Component.lexMove) ↔
      DotsTakenBack ks ∧ NamesTakenBack ks := by
  unfold DotsTakenBack NamesTakenBack
  induction ks with
  | nil => exact iff_of_true rfl ⟨forall_split_nil, forall_split_nil⟩
  | cons k ks ih =>
    rw [forall_split_cons (P := fun k after => k.sep = true → IsDots k.text →
        Overdrawn (after.map Component.move)),
      forall_split_cons (P := fun k after => k.IsName → Overdrawn (after.map Component.lexMove) →
        Overdrawn (after.map Component.move)), and_and_and_comm, ← ih, overdrawn_iff, overdrawn_iff,
      List.map_cons]
    rcases move_cases k with ⟨h, hlex, hsep, hname⟩ | ⟨h, hlex, hsep, hname⟩ | ⟨h, hlex, hname⟩ |
      ⟨h, hlex, hname, htext⟩
    · rw [keptNames_cons (.inl h), hlex, survivors]
      exact (and_iff_right ⟨fun hs => absurd hs (by simp [hsep]), fun hn => absurd hn hname⟩).symm
    · rw [keptNames_cons (.inr h), hlex, survivors]
      exact (and_iff_right ⟨fun hs => absurd hs (by simp [hsep]), fun hn => absurd hn hname⟩).symm
    · have htaken := taken_move_le ks
      rw [keptNames_cons_push h, hlex, survivors]
      by_cases hlexical : taken (ks.map Component.lexMove) = 0
      · rw [if_pos hlexical, if_pos ⟨by omega, hname.1⟩, List.cons_inj_right]
        exact (and_iff_right
          ⟨fun _ hdots => absurd hdots hname.2, fun _ hne => absurd hlexical hne⟩).symm
      · rw [if_neg hlexical]
        by_cases hcode : taken (ks.map Component.move) = 0
        · rw [if_pos ⟨hcode, hname.1⟩]
          exact iff_of_false (cons_keptNames_ne _ ks) fun hall =>
            hall.1.2 hname hlexical hcode
        · rw [if_neg fun hboth => hcode hboth.1]
          exact (and_iff_right ⟨fun _ _ => hcode, fun _ _ => hcode⟩).symm
    · rw [keptNames_cons_push h, survivors_cons hlex]
      rcases htext with hnil | ⟨hsep, hdots⟩
      · have hnot : ¬IsDots k.text := by
          rw [hnil]
          decide
        rw [if_neg fun hboth => hboth.2 hnil]
        exact (and_iff_right
          ⟨fun _ hdots => absurd hdots hnot, fun hn => absurd hn hname⟩).symm
      · have hne : k.text ≠ [] := by
          rcases hdots with hdots | hdots <;> rw [hdots] <;> decide
        by_cases hcode : taken (ks.map Component.move) = 0
        · rw [if_pos ⟨hcode, hne⟩]
          exact iff_of_false (cons_keptNames_ne _ ks) fun hall => hall.1.1 hsep hdots hcode
        · rw [if_neg fun hboth => hcode hboth.1]
          exact (and_iff_right ⟨fun _ _ => hcode, fun hn => absurd hn hname⟩).symm

/-- The components have the names of the pieces.  Empty pieces, which two
separators in a row make, are left out on both sides. -/
theorem filter_text_components (ps : List Bytes) :
    ((components ps).filter fun k => decide (k.text ≠ [])).map Component.text =
      ps.filter fun p => decide (p ≠ []) := by
  fun_induction components ps with
  | case1 => rfl
  | case2 => rfl
  | case3 p hp => simp [hp]
  | case4 q ps ih => by_cases hq : q = [] <;> simp_all
  | case5 p q ps hp ih =>
    rw [List.filter_cons_of_pos (by simpa using hp), List.filter_cons_of_pos (by simpa using hp),
      List.map_cons, ih]

/-- The lexical resolution of a path, by its components: empty names do nothing.
So leaving them out first or last comes to the same. -/
theorem lexical_names (s : Bytes) :
    lexical (names s) = survivors ((components (pieces s)).map Component.lexMove) := by
  have hskip : ∀ k : Component, decide (k.text ≠ []) = false → k.lexMove = .skip := by
    intro k hk
    exact if_pos (by simpa using hk)
  rw [lexical, names, ← filter_text_components, run_eq_survivors, List.map_map,
    ← survivors_map_filter hskip]
  refine congrArg survivors (List.map_congr_left fun k hk => ?_)
  exact (if_neg (by simpa using (List.mem_filter.1 hk).2)).symm

/-- The names of the result are those of the components that are kept.  They are
written with one separator between two of them, so cutting gives them back. -/
theorem names_helperPathNormpath (h : 0 ∉ s) :
    names (helperPathNormpath s) = keptNames (components (pieces s)) := by
  rw [keptNames, ← map_ofToken_keptTokens h, helperPathNormpath_eq, names]
  rcases eq_or_ne (keptTokens s) [] with hnil | hne
  · rw [hnil]
    simp [pieces]
  · rw [pieces_intercalate hne fun t ht => (keptTokens_spec h t ht).1]
    induction (keptTokens s).map ofToken with
    | nil => rfl
    | cons k ks ih =>
      rw [List.flatMap_cons, List.filter_append, ih, List.map_cons, List.filter_cons]
      unfold Component.pieces
      cases k.sep <;> by_cases htext : k.text = [] <;> simp [htext]

/-- Whether the result is absolute depends on the first component that is kept:
only it can have the separator that the result starts with. -/
theorem isSep_helperPathNormpath (h : 0 ∉ s) :
    isSep (byteAt (helperPathNormpath s) 0) = true ↔
      StaysAbsolute (components (pieces s)) := by
  have hfirst : StaysAbsolute (components (pieces s)) ↔
      ∃ k, (survivors ((components (pieces s)).map Component.move)).head? = some k ∧
        k.sep = true := by
    simp only [head?_survivors_map_eq_some]
    constructor
    · rintro ⟨before, k, after, hks, hsep, hstays, hbefore⟩
      exact ⟨k, ⟨before, k, after, hks, move_of_sep hsep, hstays, hbefore⟩, hsep⟩
    · rintro ⟨k, ⟨before, k', after, hks, hmove, hstays, hbefore⟩, hsep⟩
      obtain ⟨rfl, -⟩ := move_eq_push hmove
      exact ⟨before, k, after, hks, hsep, hstays, hbefore⟩
  have htokens : ∀ t ∈ keptTokens s, IsToken t := fun t ht => (keptTokens_spec h t ht).1
  rw [hfirst, ← map_ofToken_keptTokens h, helperPathNormpath_eq]
  generalize keptTokens s = ts at htokens ⊢
  rcases ts with _ | ⟨t, ts⟩
  · exact iff_of_false (by decide) fun ⟨k, hk, _⟩ => by cases hk
  · obtain ⟨c, w, rfl⟩ := List.exists_cons_of_ne_nil (htokens t (List.mem_cons_self ..)).ne_nil
    have hbyte : byteAt ([splitChar].intercalate ((c :: w) :: ts)) 0 = c := by
      cases ts <;> rfl
    rw [hbyte, List.map_cons, List.head?_cons]
    by_cases hc : isSep c = true
    · rw [ofToken_of_sep hc]
      exact iff_of_true hc ⟨_, rfl, rfl⟩
    · rw [ofToken_of_not_sep hc]
      refine iff_of_false hc ?_
      rintro ⟨k, hk, hsep⟩
      rw [← Option.some.inj hk] at hsep
      cases hsep

/-- What is normalised has no NUL. -/
theorem not_mem_basePath {cwd : Bytes} (hcwd : 0 ∉ cwd) (hs : 0 ∉ s) : 0 ∉ basePath cwd s := by
  unfold basePath
  split_ifs
  · exact hs
  · exact not_mem_joined hcwd hs

/-- What is normalised, if the path has no drive: the path, or what is joined of
the directory and the path. -/
theorem ospathAbspath_eq {cwd : Bytes} (hcwd : 0 ∉ cwd) (hs : 0 ∉ s)
    (hdrive : ¬(2 ≤ s.length ∧ isalpha (byteAt s 0) = true ∧ byteAt s 1 = 58)) :
    ospathAbspath (some cwd) s = some (ospathNormpath (basePath cwd s)) := by
  unfold ospathAbspath basePath
  by_cases hsep : isSep (byteAt s 0) = true
  · rw [if_pos (by rw [hsep, Bool.true_or]), if_pos hsep]
  · rw [if_neg (by simpa [hsep] using hdrive), if_neg hsep]
    simp only
    rw [ospathJoin_eq_joined hcwd hs hsep, Option.map_some]

/-- Its names are those of the path, behind those of the directory if it is
relative. -/
theorem names_basePath (cwd s : Bytes) : names (basePath cwd s) =
    if isSep (byteAt s 0) then names s else names cwd ++ names s := by
  unfold basePath
  split_ifs
  · rfl
  · exact names_joined cwd s

/-- **A path is made absolute as it should be exactly if**, among the components
of the path that is normalised, the first one that is not taken back has a
separator in front, and each `.` or `..` with a separator that belongs to it is
taken back, and each name that the lexical resolution takes back. -/
theorem ospathAbspath_iff {cwd : Bytes} (hcwd : 0 ∉ cwd) (hs : 0 ∉ s)
    (hdrive : ¬(2 ≤ s.length ∧ isalpha (byteAt s 0) = true ∧ byteAt s 1 = 58)) :
    AbspathOk cwd s ↔
      StaysAbsolute (components (pieces (basePath cwd s))) ∧
        DotsTakenBack (components (pieces (basePath cwd s))) ∧
        NamesTakenBack (components (pieces (basePath cwd s))) := by
  have hnul := not_mem_basePath hcwd hs
  rw [← isSep_helperPathNormpath hnul, ← keptNames_eq_iff, ← lexical_names, names_basePath,
    ← names_helperPathNormpath hnul, AbspathOk, ospathAbspath_eq hcwd hs hdrive]
  constructor
  · rintro ⟨p, hp, hok⟩
    rwa [← Option.some.inj hp] at hok
  · intro hok
    exact ⟨_, rfl, hok⟩

/-- The hypotheses are satisfiable, for a path that is made absolute as it
should be. -/
theorem ospathAbspath_iff_relative :
    StaysAbsolute (components (pieces (basePath (ascii "/w") (ascii "a/../b.js")))) ∧
      DotsTakenBack (components (pieces (basePath (ascii "/w") (ascii "a/../b.js")))) ∧
      NamesTakenBack (components (pieces (basePath (ascii "/w") (ascii "a/../b.js")))) :=
  (ospathAbspath_iff (by decide) (by decide) (by decide)).1
    ⟨ascii "/w/b.js", by decide, by decide, by decide⟩

/-- A second `..` takes the root away with the only name of the directory. -/
theorem ospathAbspath_hello_relative :
    ospathAbspath (some (ascii "/w")) (ascii "test/../.././hello.js") =
        some (ascii "hello.js") ∧
      ¬AbspathOk (ascii "/w") (ascii "test/../.././hello.js") := by
  have hhello : ospathAbspath (some (ascii "/w")) (ascii "test/../.././hello.js") =
      some (ascii "hello.js") := by decide
  refine ⟨hhello, ?_⟩
  rintro ⟨p, hp, hsep, -⟩
  obtain rfl := Option.some.inj (hhello.symm.trans hp)
  exact absurd hsep (by decide)

end Resolve

end Pylib
end Dukserver
