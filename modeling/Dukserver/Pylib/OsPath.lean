/-
# Paths

`duktape/dukpylib.c`, the functions of `os.path` that `include` resolves a file
name with and those that cut it, as they are compiled for Linux: both slashes separate, and
`/` is written.  Strings are what `duk_get_lstring` gives; a result that is pushed with
`duk_push_string` ends at its first NUL.
-/

import Dukserver.Lib.Bytes

namespace Dukserver
namespace Pylib

open Lib (Bytes byteAt cstr isalpha)

/-- `split_char`. -/
def splitChar : UInt8 := 47

/-- A slash of either kind. -/
def isSep (c : UInt8) : Bool := c == 47 || c == 92

/-- The last separator before index `n`. -/
def lastSep (fn : Bytes) : ℕ → Option ℕ
  | 0 => none
  | i + 1 => if isSep (byteAt fn i) then some i else lastSep fn i

/-- `_ospath_dirname`. -/
def ospathDirname (fn : Bytes) : Bytes :=
  match lastSep fn fn.length with
  | none => fn
  | some i => fn.take i

/-- The last byte before index `n` that is `p`. -/
def lastWhere (p : UInt8 → Bool) (fn : Bytes) : ℕ → Option ℕ
  | 0 => none
  | i + 1 => if p (byteAt fn i) then some i else lastWhere p fn i

/-- What is before and what is behind the byte at an index, if there is one. -/
def cutAt (fn : Bytes) : Option ℕ → List Bytes
  | none => [fn, []]
  | some i => [fn.take i, fn.drop (i + 1)]

/-- `_ospath_split`.  Of the empty string both parts are put at index 0. -/
def ospathSplit (fn : Bytes) : List Bytes :=
  if fn.length ≤ 0 then [[]] else cutAt fn (lastSep fn fn.length)

/-- `_ospath_splitext`. -/
def ospathSplitext (fn : Bytes) : List Bytes :=
  if fn.length ≤ 0 then [[]] else cutAt fn (lastWhere (· == 46) fn fn.length)

/-- `memcpy(buf + len, s, s_len)`. -/
def copyTo (buf : Bytes) (len : ℕ) (s : Bytes) : Bytes :=
  buf.take len ++ s ++ buf.drop (len + s.length)

/-- A pass of the loop of `_ospath_join`.  A string that starts with a separator
overwrites the start of the buffer, and `len` grows all the same. -/
def joinStep (p : Bytes × ℕ) (s : Bytes) : Bytes × ℕ :=
  if s.length ≤ 0 then p
  else if p.2 = 0 then (copyTo p.1 0 s, s.length)
  else if isSep (byteAt s 0) then (copyTo p.1 0 s, p.2 + s.length)
  else
    let p := if isSep (byteAt p.1 (p.2 - 1)) then p else (copyTo p.1 p.2 [splitChar], p.2 + 1)
    (copyTo p.1 p.2 s, p.2 + s.length)

/-- `_ospath_join`, `none` being undefined. -/
def ospathJoin (ss : List Bytes) : Option Bytes :=
  let totalLen := (ss.map fun s => s.length + 1).sum
  if totalLen ≤ 0 then none
  else some (cstr (ss.foldl joinStep (List.replicate (totalLen + ss.length + 1) 0, 0)).1)

/-- The first loop of `_helper_path_normpath`: the components, `prev` being the
start of the current one. -/
def splitComponents : Bytes → Bytes → List Bytes
  | [], prev => if prev ≠ [] then [cstr prev] else []
  | p :: s, prev =>
    if isSep p && prev ≠ [] then cstr prev :: splitComponents s []
    else splitComponents s (prev ++ [p])

/-- A pass of the second loop on the components before index `i`. -/
def resolveStep (stack : List Bytes) (c : Bytes) : List Bytes :=
  if c = Lib.ascii ".." then stack.dropLast
  else if c = Lib.ascii "." then stack
  else stack ++ [c]

/-- `_helper_path_normpath`: what it leaves in `s`. -/
def helperPathNormpath (s : Bytes) : Bytes :=
  [splitChar].intercalate ((splitComponents s []).foldl resolveStep [])

/-- `_ospath_normpath`. -/
def ospathNormpath (s : Bytes) : Bytes := helperPathNormpath s

/-- `_ospath_abspath`, `none` being undefined; `cwd` is what `getcwd` gives. -/
def ospathAbspath (cwd : Option Bytes) (s : Bytes) : Option Bytes :=
  if isSep (byteAt s 0) || (2 ≤ s.length && isalpha (byteAt s 0) && byteAt s 1 == 58) then
    some (ospathNormpath s)
  else
    match cwd with
    | none => none
    | some cwd => (ospathJoin [cwd, s]).map ospathNormpath

/-- Two strings can always be joined. -/
theorem ospathJoin_pair (s t : Bytes) : ∃ p, ospathJoin [s, t] = some p := by
  unfold ospathJoin
  have hpos : ¬([s, t].map fun u => u.length + 1).sum ≤ 0 := by
    simp only [List.map_cons, List.sum_cons]
    omega
  exact ⟨_, if_neg hpos⟩

/-- **A path can be made absolute wherever the working directory is known.** -/
theorem ospathAbspath_isSome (cwd s : Bytes) : ∃ p, ospathAbspath (some cwd) s = some p := by
  unfold ospathAbspath
  split_ifs
  · exact ⟨_, rfl⟩
  · obtain ⟨p, hp⟩ := ospathJoin_pair cwd s
    exact ⟨ospathNormpath p, by simp only [hp, Option.map_some]⟩

example : ospathAbspath (some (Lib.ascii "/w")) (Lib.ascii "a/../b.js") =
    some (Lib.ascii "/w/b.js") := by decide

end Pylib
end Dukserver
