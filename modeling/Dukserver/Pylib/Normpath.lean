/-
# What is left of a path

`duktape/dukpylib.c`, `_helper_path_normpath` (lines 354-460).  The scanner leaves a
separator that stands at the start or directly behind another one with the name behind it,
so the text that is compared with `..` is `/..` there, which is a name like any other.

`ospathNormpath_noDots_iff` says when such a component is still there in the end: unless
some stretch directly behind it has more `..` than such names.  What is left is cut into
the same components again, so the function is idempotent (`ospathNormpath_idem`).
-/

import Dukserver.Lib.Backtrack
import Dukserver.Pylib.OsPath

namespace Dukserver
namespace Pylib

open Lib (Bytes ascii byteAt cstr)
open Lib.Backtrack

/-! ### The components of a path -/

/-- A path, cut at every separator. -/
def pieces (s : Bytes) : List Bytes := s.splitOnP isSep

/-- A component of a path: a text, maybe with a separator in front. -/
structure Component where
  sep : Bool
  text : Bytes
  deriving DecidableEq, Repr

/-- The components that the scanner finds: an empty piece is the separator in
front of the next one. -/
def components : List Bytes → List Component
  | [] => []
  | [p] => if p = [] then [] else [⟨false, p⟩]
  | p :: q :: ps =>
    if p = [] then ⟨true, q⟩ :: components ps else ⟨false, p⟩ :: components (q :: ps)

/-- What a component does to those before it. -/
def Component.move (c : Component) : Move Component :=
  if c = ⟨false, ascii ".."⟩ then .pop
  else if c = ⟨false, ascii "."⟩ then .skip
  else .push c

/-- The pieces of a component. -/
def Component.pieces (c : Component) : List Bytes := if c.sep then [[], c.text] else [c.text]

/-- A component as the scanner has it. -/
def ofToken : Bytes → Component
  | [] => ⟨false, []⟩
  | c :: w => if isSep c then ⟨true, w⟩ else ⟨false, c :: w⟩

/-- What the scanner takes for one component. -/
structure IsToken (t : Bytes) : Prop where
  ne_nil : t ≠ []
  notSep : ∀ c ∈ t.tail, isSep c = false
  notNul : 0 ∉ t

section Scan

variable {s t w prev : Bytes} {ts : List Bytes} {ps : List Bytes} {c : UInt8}

/-- A text without separators is one piece, and the empty text one empty piece:
a path is never cut into nothing. -/
theorem pieces_ne_nil (s : Bytes) : pieces s ≠ [] := List.splitOnP_ne_nil _ _

/-- A separator cuts: the pieces before it and those behind it do not know of
each other. -/
theorem pieces_append_cons (s t : Bytes) (hc : isSep c = true) :
    pieces (s ++ c :: t) = pieces s ++ pieces t := List.splitOnP_append_cons _ _ hc

/-- A token that begins with a separator is a name behind one, as it is behind a
doubled separator or at the start of an absolute path. -/
theorem ofToken_of_sep (hc : isSep c = true) : ofToken (c :: w) = ⟨true, w⟩ := if_pos hc

/-- Any other token is the name itself. -/
theorem ofToken_of_not_sep (hc : ¬isSep c = true) : ofToken (c :: w) = ⟨false, c :: w⟩ := if_neg hc

/-- The pieces of a token are those of its component: only the first byte of a
token can be a separator, so there is one piece, with an empty one before it if
it is. -/
theorem pieces_of_notSep (hne : t ≠ []) (ht : ∀ c ∈ t.tail, isSep c = false) :
    pieces t = (ofToken t).pieces := by
  obtain ⟨c, w, rfl⟩ := List.exists_cons_of_ne_nil hne
  rw [List.tail_cons] at ht
  by_cases hc : isSep c = true
  · rw [ofToken_of_sep hc, ← List.nil_append (c :: w), pieces_append_cons [] w hc, pieces, pieces,
      List.splitOnP_eq_singleton ht, List.splitOnP_nil]
    rfl
  · rw [ofToken_of_not_sep hc]
    refine List.splitOnP_eq_singleton fun b hb => ?_
    rcases List.mem_cons.1 hb with rfl | hb
    · exact Bool.eq_false_iff.2 hc
    · exact ht b hb

/-- The component of a token is not empty, as the token has a first byte: it is
the separator or belongs to the name. -/
theorem ofToken_sep_or_text (hne : t ≠ []) : (ofToken t).sep = true ∨ (ofToken t).text ≠ [] := by
  obtain ⟨c, w, rfl⟩ := List.exists_cons_of_ne_nil hne
  by_cases hc : isSep c = true
  · rw [ofToken_of_sep hc]
    exact .inl rfl
  · rw [ofToken_of_not_sep hc]
    exact .inr (List.cons_ne_nil _ _)

/-- The pieces of a component at the end give the component.  The empty piece
before its name says that its separator is left over. -/
theorem components_pieces {k : Component} (hk : k.sep = true ∨ k.text ≠ []) :
    components k.pieces = [k] := by
  obtain ⟨sep, text⟩ := k
  cases sep with
  | true => rfl
  | false => exact if_neg (hk.resolve_left Bool.noConfusion)

/-- The pieces of a component before others give the component, and then what
the others give: a component never takes more than its own pieces. -/
theorem components_pieces_append {k : Component} (hk : k.sep = true ∨ k.text ≠ [])
    (hps : ps ≠ []) : components (k.pieces ++ ps) = k :: components ps := by
  obtain ⟨sep, text⟩ := k
  obtain ⟨p, ps, rfl⟩ := List.exists_cons_of_ne_nil hps
  cases sep with
  | true => rfl
  | false => exact if_neg (hk.resolve_left Bool.noConfusion)

/-- A token stays one with another byte behind it: the scanner appends a byte
only if it is no separator or the first of the token. -/
theorem notSep_append (ht : ∀ c ∈ prev.tail, isSep c = false)
    (hc : ¬(isSep c && decide (prev ≠ [])) = true) : ∀ b ∈ (prev ++ [c]).tail, isSep b = false := by
  cases prev with
  | nil => exact fun b hb => absurd hb List.not_mem_nil
  | cons a prev =>
    intro b hb
    rw [List.cons_append, List.tail_cons, List.mem_append, List.mem_singleton] at hb
    rcases hb with hb | rfl
    · exact ht b hb
    · simpa using hc

/-- **The scanner finds the components.**  It goes byte by byte and the
components are cut from the pieces of the whole path, so the induction is on the
bytes left, with the token begun so far in front of them. -/
theorem map_ofToken_splitComponents (hnul : 0 ∉ prev ++ s)
    (hprev : ∀ c ∈ prev.tail, isSep c = false) :
    (splitComponents s prev).map ofToken = components (pieces (prev ++ s)) := by
  induction s generalizing prev with
  | nil =>
    rw [List.append_nil] at hnul ⊢
    unfold splitComponents
    split_ifs with hne
    · rw [pieces_of_notSep hne hprev, components_pieces (ofToken_sep_or_text hne),
        Lib.cstr_of_not_mem hnul]
      rfl
    · rw [not_not.1 hne]
      rfl
  | cons c s ih =>
    unfold splitComponents
    split_ifs with hsplit
    · rw [Bool.and_eq_true, decide_eq_true_eq] at hsplit
      obtain ⟨hc, hne⟩ := hsplit
      rw [List.mem_append, List.mem_cons, not_or, not_or] at hnul
      rw [pieces_append_cons _ _ hc, pieces_of_notSep hne hprev,
        components_pieces_append (ofToken_sep_or_text hne) (pieces_ne_nil s), List.map_cons,
        @ih [] hnul.2.2 (fun b hb => absurd hb List.not_mem_nil),
        Lib.cstr_of_not_mem hnul.1]
      rfl
    · rw [List.append_cons] at hnul
      rw [List.append_cons prev c s]
      exact ih hnul (notSep_append hprev hsplit)

/-- What the scanner finds are tokens: not empty, without a NUL, and with no
separator behind the first byte.  A path has no NUL, and an empty token is not
stored. -/
theorem isToken_of_mem_splitComponents (hnul : 0 ∉ prev ++ s)
    (hprev : ∀ c ∈ prev.tail, isSep c = false) (ht : t ∈ splitComponents s prev) : IsToken t := by
  induction s generalizing prev with
  | nil =>
    rw [List.append_nil] at hnul
    unfold splitComponents at ht
    split_ifs at ht with hne
    · obtain rfl := List.mem_singleton.1 ht
      rw [Lib.cstr_of_not_mem hnul]
      exact ⟨hne, hprev, hnul⟩
    · exact absurd ht List.not_mem_nil
  | cons c s ih =>
    unfold splitComponents at ht
    split_ifs at ht with hsplit
    · rw [Bool.and_eq_true, decide_eq_true_eq] at hsplit
      rw [List.mem_append, List.mem_cons, not_or, not_or] at hnul
      rcases List.mem_cons.1 ht with rfl | ht
      · rw [Lib.cstr_of_not_mem hnul.1]
        exact ⟨hsplit.2, hprev, hnul.1⟩
      · exact @ih [] hnul.2.2 (fun b hb => absurd hb List.not_mem_nil) ht
    · rw [List.append_cons] at hnul
      exact ih hnul (notSep_append hprev hsplit) ht

/-! ### What is kept -/

/-- `resolveStep` as a move. -/
def tokenMove (t : Bytes) : Move Bytes :=
  if t = ascii ".." then .pop
  else if t = ascii "." then .skip
  else .push t

/-- The two pops and the push of the second loop are the moves of a stack: `..`
takes off the last, `.` nothing, and a name is put on. -/
theorem resolveStep_eq (stack : List Bytes) (t : Bytes) :
    resolveStep stack t = step stack (tokenMove t) := by
  unfold resolveStep tokenMove
  split_ifs <;> rfl

/-- The tokens that are kept. -/
def keptTokens (s : Bytes) : List Bytes := survivors ((splitComponents s []).map tokenMove)

/-- **The result is what is kept**, with one separator between: the third loop
copies the names that are on the stack. -/
theorem helperPathNormpath_eq (s : Bytes) :
    helperPathNormpath s = [splitChar].intercalate (keptTokens s) := by
  have hstep : resolveStep = fun stack t => step stack (tokenMove t) :=
    funext fun stack => funext fun t => resolveStep_eq stack t
  rw [helperPathNormpath, keptTokens, ← run_eq_survivors, run, List.foldl_map, hstep]

/-- What is pushed is the token itself, and it is neither `.` nor `..`: these
two move the stack otherwise. -/
theorem tokenMove_eq_push {a : Bytes} (h : tokenMove t = .push a) :
    a = t ∧ t ≠ ascii ".." ∧ t ≠ ascii "." := by
  unfold tokenMove at h
  split_ifs at h with hup hdot
  exact ⟨(Move.push.inj h).symm, hup, hdot⟩

/-- What is kept are tokens, and none is `.` or `..`: a stack holds only what
was pushed on it. -/
theorem keptTokens_spec (h : 0 ∉ s) :
    ∀ t ∈ keptTokens s, IsToken t ∧ t ≠ ascii ".." ∧ t ≠ ascii "." := by
  rw [keptTokens, forall_survivors_map_iff]
  intro before t after hts a hpush _
  obtain ⟨rfl, hne⟩ := tokenMove_eq_push hpush
  have hmem : a ∈ splitComponents s [] := by
    rw [hts]
    exact List.mem_append_right _ (List.mem_cons_self ..)
  exact ⟨isToken_of_mem_splitComponents h (fun b hb => absurd hb List.not_mem_nil) hmem, hne⟩

/-- A component without a separator of its own is a token word for word.  So the
scanner compares the tokens with `..` and `.` as one would compare the names. -/
theorem ofToken_eq_name (hw : w.any isSep = false) : ofToken t = ⟨false, w⟩ ↔ t = w := by
  rcases t with _ | ⟨c, v⟩
  · simp [ofToken]
  · by_cases hc : isSep c = true
    · rw [ofToken_of_sep hc]
      refine iff_of_false (fun h => by cases h) ?_
      rintro rfl
      rw [List.any_cons, hc, Bool.true_or] at hw
      cases hw
    · rw [ofToken_of_not_sep hc, Component.mk.injEq]
      exact and_iff_right rfl

/-- A token and its component move the stack alike: what is compared with `..`
is the whole token, and `/..` is a name for both. -/
theorem map_tokenMove (t : Bytes) : (tokenMove t).map ofToken = (ofToken t).move := by
  have hup : ofToken t = ⟨false, ascii ".."⟩ ↔ t = ascii ".." :=
    ofToken_eq_name (by decide)
  have hdot : ofToken t = ⟨false, ascii "."⟩ ↔ t = ascii "." :=
    ofToken_eq_name (by decide)
  unfold tokenMove Component.move
  simp only [hup, hdot]
  split_ifs <;> rfl

/-- The components that are kept: the stack of tokens and the stack of
components make the same moves. -/
theorem map_ofToken_keptTokens (h : 0 ∉ s) :
    (keptTokens s).map ofToken = survivors ((components (pieces s)).map Component.move) := by
  have hscan : (splitComponents s []).map ofToken = components (pieces s) :=
    map_ofToken_splitComponents h fun b hb => absurd hb List.not_mem_nil
  rw [keptTokens, ← survivors_map_map, ← hscan, List.map_map, List.map_map]
  exact congrArg survivors (List.map_congr_left fun t _ => map_tokenMove t)

/-- The pieces of joined tokens are those of their components.  The separator
between two tokens cuts them, and a token that begins with one gives an empty
piece more. -/
theorem pieces_intercalate (hne : ts ≠ []) (hts : ∀ t ∈ ts, IsToken t) :
    pieces ([splitChar].intercalate ts) = (ts.map ofToken).flatMap Component.pieces := by
  induction ts with
  | nil => exact absurd rfl hne
  | cons t ts ih =>
    have ht := hts t (List.mem_cons_self ..)
    have hpieces := pieces_of_notSep ht.ne_nil ht.notSep
    rw [List.map_cons, List.flatMap_cons, ← hpieces]
    rcases eq_or_ne ts [] with rfl | hrest
    · rw [List.intercalate_singleton]
      exact (List.append_nil _).symm
    · rw [List.intercalate_cons_of_ne_nil hrest, List.append_assoc, List.singleton_append,
        pieces_append_cons _ _ (by decide),
        ih hrest fun u hu => hts u (List.mem_cons_of_mem _ hu)]

/-- `.` or `..`. -/
def IsDots (p : Bytes) : Prop := p = ascii "." ∨ p = ascii ".."

instance : DecidablePred IsDots := fun p =>
  inferInstanceAs (Decidable (p = ascii "." ∨ p = ascii ".."))

/-- The pieces of the result are those of the components that are kept.  Empty
pieces are left aside, as a doubled separator gives them. -/
theorem mem_pieces_helperPathNormpath {p : Bytes} (h : 0 ∉ s) (hp : p ≠ []) :
    p ∈ pieces (helperPathNormpath s) ↔
      ∃ k ∈ survivors ((components (pieces s)).map Component.move), k.text = p := by
  rw [helperPathNormpath_eq, ← map_ofToken_keptTokens h]
  rcases eq_or_ne (keptTokens s) [] with hnil | hne
  · rw [hnil, List.intercalate_nil, List.map_nil]
    simp [pieces, hp]
  · rw [pieces_intercalate hne fun t ht => (keptTokens_spec h t ht).1, List.mem_flatMap]
    refine exists_congr fun k => and_congr_right fun _ => ?_
    unfold Component.pieces
    split_ifs <;> simp [hp, eq_comm]

/-- A component that is pushed is no `..` and no `.` without a separator of its
own. -/
theorem move_eq_push {k a : Component} (h : k.move = .push a) :
    a = k ∧ k ≠ ⟨false, ascii ".."⟩ ∧ k ≠ ⟨false, ascii "."⟩ := by
  unfold Component.move at h
  split_ifs at h with hup hdot
  exact ⟨(Move.push.inj h).symm, hup, hdot⟩

/-- A component with a separator of its own is pushed, whatever its name: the
scanner compares the separator along with it. -/
theorem move_of_sep {k : Component} (h : k.sep = true) : k.move = .push k := by
  unfold Component.move
  rw [if_neg, if_neg] <;> rintro rfl <;> cases h

/-- Each `.` and `..` with a separator that belongs to it is taken back: some
stretch directly behind it takes back more than it pushes. -/
def DotsTakenBack (ks : List Component) : Prop :=
  ∀ before k after, ks = before ++ k :: after → k.sep = true → IsDots k.text →
    Overdrawn (after.map Component.move)

/-- **No piece of the result is `.` or `..` exactly if** each of them that the
scanner leaves with a separator is taken back. -/
theorem ospathNormpath_noDots_iff (h : 0 ∉ s) :
    (∀ p ∈ pieces (ospathNormpath s), ¬IsDots p) ↔ DotsTakenBack (components (pieces s)) := by
  have hsurvive : (∀ p ∈ pieces (ospathNormpath s), ¬IsDots p) ↔
      ∀ k ∈ survivors ((components (pieces s)).map Component.move), ¬IsDots k.text := by
    have hne : ∀ {p}, IsDots p → p ≠ [] := by
      rintro p (rfl | rfl) <;> decide
    constructor
    · intro hall k hk hdots
      exact hall _ ((mem_pieces_helperPathNormpath h (hne hdots)).2 ⟨k, hk, rfl⟩) hdots
    · intro hall p hp hdots
      obtain ⟨k, hk, rfl⟩ := (mem_pieces_helperPathNormpath h (hne hdots)).1 hp
      exact hall k hk hdots
  rw [hsurvive, forall_survivors_map_iff]
  constructor
  · intro hall before k after hsplit hsep hdots
    by_contra hstays
    exact hall before k after hsplit k (move_of_sep hsep) hstays hdots
  · rintro hall before ⟨sep, text⟩ after hsplit a hpush hstays hdots
    obtain ⟨rfl, hup, hdot⟩ := move_eq_push hpush
    cases sep with
    | true => exact hstays (hall before ⟨true, text⟩ after hsplit rfl hdots)
    | false =>
      rcases hdots with hdots | hdots
      · exact hdot (congrArg _ hdots)
      · exact hup (congrArg _ hdots)

/-- The hypothesis is satisfiable, and the second `..` takes the first one back. -/
theorem ospathNormpath_noDots_iff_up : DotsTakenBack (components (pieces (ascii "a//../.."))) :=
  (ospathNormpath_noDots_iff (by decide)).1 (by decide)

/-- A `..` at the start of an absolute path stays. -/
theorem ospathNormpath_root_up :
    ospathNormpath (ascii "/../etc") = ascii "/../etc" ∧
      ¬∀ p ∈ pieces (ospathNormpath (ascii "/../etc")), ¬IsDots p :=
  ⟨by decide, fun h => h (ascii "..") (by decide) (.inr rfl)⟩

/-! ### Twice -/

/-- A token is cut off at the separator behind it; up to there the scanner goes
on. -/
theorem splitComponents_append (hw : ∀ c ∈ w, isSep c = false) (rest prev : Bytes) :
    splitComponents (w ++ rest) prev = splitComponents rest (prev ++ w) := by
  induction w generalizing prev with
  | nil => rw [List.nil_append, List.append_nil]
  | cons c w ih =>
    rw [List.cons_append, splitComponents, hw c (List.mem_cons_self ..), Bool.false_and,
      if_neg Bool.noConfusion, ih (fun b hb => hw b (List.mem_cons_of_mem _ hb)),
      List.append_cons prev c w]

/-- The scanner takes in a whole token, even one that begins with a separator:
the first byte ends nothing, as there is nothing before it. -/
theorem splitComponents_token (ht : IsToken t) (rest : Bytes) :
    splitComponents (t ++ rest) [] = splitComponents rest t := by
  obtain ⟨hne, htail, -⟩ := ht
  obtain ⟨c, w, rfl⟩ := List.exists_cons_of_ne_nil hne
  rw [List.cons_append, splitComponents, if_neg (by simp)]
  exact splitComponents_append htail rest [c]

/-- **Joined tokens are cut into the same tokens**: each separator between two
of them ends the one before, and is not the first byte of the next. -/
theorem splitComponents_intercalate (hts : ∀ t ∈ ts, IsToken t) :
    splitComponents ([splitChar].intercalate ts) [] = ts := by
  induction ts with
  | nil => rfl
  | cons t ts ih =>
    have ht := hts t (List.mem_cons_self ..)
    rcases eq_or_ne ts [] with rfl | hrest
    · rw [List.intercalate_singleton, ← List.append_nil t, splitComponents_token ht,
        splitComponents, if_pos ht.ne_nil, Lib.cstr_of_not_mem ht.notNul, List.append_nil]
    · rw [List.intercalate_cons_of_ne_nil hrest, List.append_assoc, splitComponents_token ht,
        List.singleton_append, splitComponents, if_pos (by simp [ht.ne_nil, isSep, splitChar]),
        Lib.cstr_of_not_mem ht.notNul, ih fun u hu => hts u (List.mem_cons_of_mem _ hu)]

/-- **The result of `normpath` is a fixed point.**  It is made of tokens none of
which is `.` or `..`, so a second call finds the same tokens and keeps all of
them. -/
theorem ospathNormpath_idem (h : 0 ∉ s) :
    ospathNormpath (ospathNormpath s) = ospathNormpath s := by
  unfold ospathNormpath
  have hspec := keptTokens_spec h
  rw [helperPathNormpath_eq s, helperPathNormpath_eq, keptTokens,
    splitComponents_intercalate fun t ht => (hspec t ht).1]
  -- nothing is left that takes anything back
  have hpush : (keptTokens s).map tokenMove = (keptTokens s).map .push :=
    List.map_congr_left fun t ht => by
      unfold tokenMove
      rw [if_neg (hspec t ht).2.1, if_neg (hspec t ht).2.2]
  rw [hpush, survivors_map_push]

/-- The hypothesis is satisfiable. -/
theorem ospathNormpath_idem_doubled :
    ospathNormpath (ospathNormpath (ascii "/a/.//b/../../c\\d/")) =
      ospathNormpath (ascii "/a/.//b/../../c\\d/") :=
  ospathNormpath_idem (by decide)

end Scan

end Pylib
end Dukserver
