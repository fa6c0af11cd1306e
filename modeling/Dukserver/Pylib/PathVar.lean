/-
# The search path of Windows

`duktape/subprocess_w32.c`, `_parse_environment_path_var` (lines 126-197).  The scanner goes over
the value of `PATH` with the start of the current entry, which it sets at the first character
that is no white space.  It stores an entry when it meets a `;`, so that what is behind the last
one is not stored.
-/

import Dukserver.Http.HeaderLine

namespace Dukserver
namespace Pylib

open Http (stripped)
open Lib (Bytes ascii isspace)

/-- `/` is turned into `\`. -/
def backslash (c : UInt8) : UInt8 := if c == 47 then 92 else c

/-- The scanner in front of the text from `p` on.  `prev` is the text from
`prev` to `p`. -/
def scanPath : Bytes → Option Bytes → List Bytes
  | [], _ => []
  | p :: rest, prev =>
    -- the pass that sets `prev` leaves `p`, and the next one looks at the character again
    let prev := if prev.isNone && !isspace p then some [] else prev
    if p == 59 then
      match prev with
      | none => scanPath rest none
      | some entry =>
        let q := entry.rdropWhile isspace
        if 0 < q.length then q :: scanPath rest none else scanPath rest none
    else scanPath rest (prev.map fun entry => entry ++ [p])

/-- `_parse_environment_path_var`, where `PATH` has a value, or none. -/
def parseEnvironmentPathVar : Option Bytes → List Bytes
  | none => []
  | some path => scanPath (path.map backslash) none

/-- The entries among some pieces: without white space on both sides, and not
empty. -/
def entriesOf (pieces : List Bytes) : List Bytes :=
  (pieces.map stripped).filter fun e => decide (e ≠ [])

/-- The entries of a value, of the pieces between the `;`. -/
def pathEntries (path : Bytes) : List Bytes := entriesOf ((path.map backslash).splitOn 59)

section Scan

variable {u rest path : Bytes} {pieces : List Bytes} {p : UInt8}

/-- What the scanner has of an entry of which it has seen `u`. -/
def entryOf (u : Bytes) : Option Bytes :=
  if u.dropWhile isspace = [] then none else some (u.dropWhile isspace)

/-- Entries of pieces are those of the first and then those of the others. -/
theorem entriesOf_cons (u : Bytes) (pieces : List Bytes) :
    entriesOf (u :: pieces) = entriesOf [u] ++ entriesOf pieces := by
  rw [← List.singleton_append, entriesOf, List.map_append, List.filter_append]
  rfl

/-- Or those of all but the last, and then its own. -/
theorem entriesOf_concat (pieces : List Bytes) (u : Bytes) :
    entriesOf (pieces ++ [u]) = entriesOf pieces ++ entriesOf [u] := by
  rw [entriesOf, List.map_append, List.filter_append]
  rfl

/-- A piece that is not all white space is one entry. -/
theorem entriesOf_of_ne (h : stripped u ≠ []) : entriesOf [u] = [stripped u] := by
  simp [entriesOf, h]

/-- One that is gives none. -/
theorem entriesOf_eq_nil (h : stripped u = []) : entriesOf [u] = [] := by
  simp [entriesOf, h]

/-- At the start of a piece no entry has begun. -/
theorem entryOf_nil : entryOf [] = none := rfl

/-- A `;` ends the entry: what was seen of it is stored, and the next piece
begins. -/
theorem scanPath_semicolon (u rest : Bytes) :
    scanPath (59 :: rest) (entryOf u) = entriesOf [u] ++ scanPath rest none := by
  by_cases hblank : u.dropWhile isspace = []
  · have hstripped : stripped u = [] := by rw [stripped, hblank, List.rdropWhile_nil]
    rw [entryOf, if_pos hblank, entriesOf_eq_nil hstripped]
    rfl
  · rw [entryOf, if_neg hblank]
    by_cases hstripped : stripped u = []
    · have hlength : ¬ 0 < ((u.dropWhile isspace).rdropWhile isspace).length := by
        rw [← stripped, hstripped]
        exact Nat.lt_irrefl 0
      rw [entriesOf_eq_nil hstripped]
      exact if_neg hlength
    · rw [entriesOf_of_ne hstripped]
      exact if_pos (List.length_pos_iff.2 hstripped)

/-- Another character belongs to the entry, or is white space in front of it.
`entryOf` says which: there is no entry yet as long as there was only white
space. -/
theorem scanPath_char (h : p ≠ 59) (u rest : Bytes) :
    scanPath (p :: rest) (entryOf u) = scanPath rest (entryOf (u ++ [p])) := by
  have hchar : (p == 59) = false := beq_eq_false_iff_ne.2 h
  by_cases hblank : u.dropWhile isspace = []
  · have hall : ∀ c ∈ u, isspace c = true := List.dropWhile_eq_nil_iff.1 hblank
    rw [entryOf, if_pos hblank, entryOf, List.dropWhile_append_of_pos hall]
    cases hspace : isspace p <;> simp [scanPath, hchar, hspace]
  · have hlater : (u ++ [p]).dropWhile isspace = u.dropWhile isspace ++ [p] := by
      rw [List.dropWhile_append, if_neg (by rwa [List.isEmpty_iff])]
    rw [entryOf, if_neg hblank, entryOf, hlater,
      if_neg (List.append_ne_nil_of_right_ne_nil _ (List.cons_ne_nil p []))]
    simp [scanPath, hchar]

/-- **The scanner stores what is in front of each `;`**, with `u` what it has
seen of the current piece.  What is behind the last one is begun and never
stored. -/
theorem scanPath_entryOf (hu : 59 ∉ u) :
    scanPath rest (entryOf u) = entriesOf ((u ++ rest).splitOn 59).dropLast := by
  induction rest generalizing u with
  | nil =>
    rw [List.append_nil, List.splitOn_eq_singleton hu]
    rfl
  | cons p rest ih =>
    by_cases hp : p = 59
    · subst hp
      have hrest := ih (List.not_mem_nil (a := 59))
      rw [entryOf_nil, List.nil_append] at hrest
      rw [scanPath_semicolon, List.splitOn_append_cons_self_of_not_mem hu,
        List.dropLast_cons_of_ne_nil (List.splitOn_ne_nil 59 rest),
        entriesOf_cons u (rest.splitOn 59).dropLast, hrest]
    · rw [scanPath_char hp, List.append_cons u p rest]
      refine ih fun hmem => ?_
      rcases List.mem_append.1 hmem with hmem | hmem
      · exact hu hmem
      · exact hp (List.mem_singleton.1 hmem).symm

/-- Nothing is left of a piece of white space only, and something of every
other: its first other byte is kept. -/
theorem stripped_eq_nil : stripped u = [] ↔ ∀ c ∈ u, isspace c = true := by
  constructor
  · intro h
    have hall : ∀ c ∈ u.dropWhile isspace, isspace c = true := List.rdropWhile_eq_nil_iff.1 h
    cases hrest : u.dropWhile isspace with
    | nil => exact List.dropWhile_eq_nil_iff.1 hrest
    | cons c t =>
      -- the first character behind the white space is none
      have hhead := List.head?_dropWhile_not isspace u
      rw [hrest, List.head?_cons] at hhead
      rw [hrest] at hall
      exact absurd (hall c List.mem_cons_self) (Bool.eq_false_iff.1 hhead)
  · intro h
    rw [stripped, List.dropWhile_eq_nil_iff.2 h, List.rdropWhile_nil]

/-- What does not tell the two slashes apart is not changed when one is written
for the other. -/
theorem apply_backslash {β : Type*} {f : UInt8 → β} (hf : f 92 = f 47) (c : UInt8) :
    f (backslash c) = f c := by
  unfold backslash
  split
  · rename_i hslash
    rw [eq_of_beq hslash, hf]
  · rfl

/-- Neither is white space. -/
theorem isspace_backslash (c : UInt8) : isspace (backslash c) = isspace c :=
  apply_backslash (by decide) c

/-- And neither ends an entry. -/
theorem backslash_eq_semicolon (c : UInt8) : (backslash c == 59) = (c == 59) :=
  apply_backslash (f := fun c => c == 59) (by decide) c

/-- So the slashes can be turned before the value is cut, as the source does, or
after. -/
theorem splitOn_map_backslash (path : Bytes) :
    (path.map backslash).splitOn 59 = (path.splitOn 59).map (List.map backslash) := by
  induction path with
  | nil => rfl
  | cons c t ih =>
    rw [List.map_cons, List.splitOn_cons_eq_if_modifyHead, List.splitOn_cons_eq_if_modifyHead,
      backslash_eq_semicolon, ih]
    split
    · rfl
    · cases t.splitOn 59 <;> rfl

/-- The pieces in front of each `;`, and the one behind the last.  The second
part is what the source leaves out. -/
theorem pathEntries_eq (path : Bytes) (hlast : path.splitOn 59 = pieces ++ [u]) :
    pathEntries path = parseEnvironmentPathVar (some path) ++ entriesOf [u.map backslash] := by
  have hpieces : (path.map backslash).splitOn 59 =
      pieces.map (List.map backslash) ++ [u.map backslash] := by
    rw [splitOn_map_backslash, hlast, List.map_append]
    rfl
  have hscan : parseEnvironmentPathVar (some path) =
      entriesOf ((path.map backslash).splitOn 59).dropLast :=
    scanPath_entryOf (u := []) (List.not_mem_nil (a := 59))
  rw [hscan, pathEntries, hpieces, List.dropLast_concat, entriesOf_concat]

/-- **The entries of a value are returned if and only if nothing but white space
is behind the last `;`.** -/
theorem parseEnvironmentPathVar_eq_pathEntries (path : Bytes) :
    parseEnvironmentPathVar (some path) = pathEntries path ↔
      ∀ u ∈ (path.splitOn 59).getLast?, ∀ c ∈ u, isspace c = true := by
  obtain ⟨pieces, u, hlast⟩ :=
    (List.eq_nil_or_concat' (path.splitOn 59)).resolve_left (List.splitOn_ne_nil 59 path)
  have hblank : entriesOf [u.map backslash] = [] ↔ ∀ c ∈ u, isspace c = true := by
    have hspaces : stripped (u.map backslash) = [] ↔ ∀ c ∈ u, isspace c = true := by
      rw [stripped_eq_nil, List.forall_mem_map]
      simp only [isspace_backslash]
    rw [← hspaces]
    refine ⟨fun h => ?_, entriesOf_eq_nil⟩
    by_contra hne
    rw [entriesOf_of_ne hne] at h
    exact List.cons_ne_nil _ _ h
  rw [pathEntries_eq path hlast, List.self_eq_append_right, hblank, hlast, List.getLast?_concat]
  simp

/-- The entry behind the last `;` is lost, as on the usual values of `PATH`. -/
theorem parseEnvironmentPathVar_unterminated :
    parseEnvironmentPathVar (some (ascii "C:/bin;C:/Windows")) = [ascii "C:\\bin"] ∧
      parseEnvironmentPathVar (some (ascii "C:/bin;C:/Windows")) ≠
        pathEntries (ascii "C:/bin;C:/Windows") := by
  decide

end Scan

end Pylib
end Dukserver
