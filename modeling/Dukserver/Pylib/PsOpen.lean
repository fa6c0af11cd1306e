/-
# The arguments of a process

`duktape/dukpylib.c`, `_ps_open` (lines 1329-1380): the arguments of `_subprocess.open` are
copied to the blocks of `args`, from one array or from the value stack.  `execvp` reads
`args` up to the first `NULL`.

Both loops pop a value in each pass.  The loop over the array has pushed it before; the
other one pops its own arguments while it reads them by their index from the bottom, so
it finds only the first half of them (`stackPasses`).
-/

import Dukserver.Wsgi.Duk
import Mathlib.Logic.Function.Iterate

namespace Dukserver
namespace Pylib

open Lib (Bytes ascii)
open Wsgi (DukError)

/-- A value on the stack. -/
inductive PsValue
  | undefined
  | string (s : Bytes)
  | array (elems : List PsValue)

/-- The arguments of a call: one array, or values the first of which is none. -/
inductive OpenArgs
  | array (elems : List PsValue)
  | values (vs : List PsValue)

/-- `duk_get_lstring`: where there is no string, its length is 0. -/
def getLstring : Option PsValue → Bytes
  | some (.string s) => s
  | _ => []

/-- `duk_get_prop_index`. -/
def getPropIndex : Option PsValue → ℕ → PsValue
  | some (.array elems), i => elems.getD i .undefined
  | _, _ => .undefined

/-- The block of an argument. -/
def argBlock (s : Bytes) : Bytes := s ++ [0]

/-- A pass of the loop over the array: `args` and the stack. -/
def arrayPass (p : List (Option Bytes) × List PsValue) (i : ℕ) :
    List (Option Bytes) × List PsValue :=
  let stack := p.2 ++ [getPropIndex p.2.getLast? i]
  (p.1.set i (some (argBlock (getLstring stack.getLast?))), stack.dropLast)

/-- A pass of the loop over the arguments. -/
def stackPass (p : List (Option Bytes) × List PsValue) (i : ℕ) :
    List (Option Bytes) × List PsValue :=
  (p.1.set i (some (argBlock (getLstring p.2[i]?))), p.2.dropLast)

/-- `_ps_open`, what it passes to `psopen` as `args`; `none` is `NULL`. -/
def psOpenArgs : OpenArgs → Except DukError (List (Option Bytes))
  | .array elems =>
    let length := elems.length
    if length ≤ 0 then .error ⟨.rangeError, "Array.length is zero or invalid!"⟩
    else .ok ((List.range length).foldl arrayPass
      (List.replicate (length + 1) none, [.array elems])).1
  | .values vs =>
    let length := vs.length
    if length = 0 then .error ⟨.rangeError, "one parameter at least!"⟩
    else .ok ((List.range length).foldl stackPass (List.replicate (length + 1) none, vs)).1

/-- What `execvp` takes for the arguments. -/
def argv : List (Option Bytes) → List Bytes
  | some block :: args => block :: argv args
  | _ => []

/-- Both ways to give the arguments lead to the same ones, which are the
strings. -/
def SameArgv (ss : List Bytes) : Prop :=
  ∃ a b, psOpenArgs (.values (ss.map .string)) = .ok a ∧
    psOpenArgs (.array (ss.map .string)) = .ok b ∧
    argv a = argv b ∧ argv a = ss.map argBlock

section Passes

variable {vs elems : List PsValue} {ss : List Bytes} {n k : ℕ}

/-- **A loop over `args`**, with what a pass reads from the stack and what it
leaves of it.  Each pass writes the next entry of `args`. -/
theorem foldl_passes (pass : List (Option Bytes) × List PsValue → ℕ →
      List (Option Bytes) × List PsValue)
    {read : List PsValue → ℕ → Bytes} {next : List PsValue → List PsValue}
    (hpass : ∀ args stack i, pass (args, stack) i = (args.set i (some (read stack i)), next stack))
    (vs : List PsValue) (hk : k ≤ n) :
    (List.range k).foldl pass (List.replicate (n + 1) none, vs) =
      ((List.range k).map (fun i => some (read (next^[i] vs) i)) ++
        List.replicate (n + 1 - k) none, next^[k] vs) := by
  induction k with
  | zero => rfl
  | succ k ih =>
    have hrest : n + 1 - k = (n + 1 - (k + 1)) + 1 := by omega
    rw [List.range_succ, List.foldl_append, ih (by omega), List.foldl_cons, List.foldl_nil, hpass,
      hrest, List.replicate_succ, List.set_append_right _ _ (by simp), List.length_map,
      List.length_range, Nat.sub_self, List.set_cons_zero, List.map_append, List.append_assoc,
      Function.iterate_succ_apply']
    rfl

/-- `execvp` reads `args` up to the first `NULL`. -/
theorem argv_map (bs : List Bytes) (m : ℕ) :
    argv (bs.map some ++ List.replicate m none) = bs := by
  induction bs with
  | nil => cases m <;> rfl
  | cons b bs ih => exact congrArg (b :: ·) ih

/-- So it reads what the passes have written.  The first `NULL` ends the vector,
and there is none before it. -/
theorem argv_passes (f : ℕ → Bytes) (n m : ℕ) :
    argv ((List.range n).map (fun i => some (f i)) ++ List.replicate m none) =
      (List.range n).map f := by
  have hmap : (List.range n).map (fun i => some (f i)) = ((List.range n).map f).map some := by
    rw [List.map_map]
    rfl
  rw [hmap, argv_map]

/-- What is left of the stack after some pops.  Each pass pops one value, though
it has read another one. -/
theorem iterate_dropLast (vs : List PsValue) (k : ℕ) :
    List.dropLast^[k] vs = vs.take (vs.length - k) := by
  induction k with
  | zero => exact (List.take_length).symm
  | succ k ih =>
    rw [Function.iterate_succ_apply', ih, List.dropLast_eq_take, List.length_take, List.take_take]
    congr 1
    omega

/-- **What the loop over the arguments reads**: an argument of the first half,
and nothing in the place of one of the second half. -/
theorem stackPasses (hvs : vs ≠ []) : ∃ args, psOpenArgs (.values vs) = .ok args ∧
    argv args = (List.range vs.length).map fun i =>
      argBlock (getLstring (if i < vs.length - i then vs[i]? else none)) := by
  have hlen : ¬vs.length = 0 := by simpa using hvs
  refine ⟨_, if_neg hlen, ?_⟩
  have hpass : ∀ args stack i, stackPass (args, stack) i =
      (args.set i (some (argBlock (getLstring stack[i]?))), stack.dropLast) := fun _ _ _ => rfl
  rw [foldl_passes stackPass hpass vs le_rfl, argv_passes]
  refine List.map_congr_left fun i _ => ?_
  rw [iterate_dropLast, List.getElem?_take]

/-- **The loop over the array reads its elements**: each pass pushes the one it
pops. -/
theorem arrayPasses (helems : elems ≠ []) : ∃ args, psOpenArgs (.array elems) = .ok args ∧
    argv args = (List.range elems.length).map fun i =>
      argBlock (getLstring (some (elems.getD i .undefined))) := by
  have hlen : ¬elems.length ≤ 0 := by simpa using helems
  refine ⟨_, if_neg hlen, ?_⟩
  have hpass : ∀ args stack i, arrayPass (args, stack) i =
      (args.set i (some (argBlock (getLstring (some (getPropIndex stack.getLast? i))))),
        id stack) := by
    intro args stack i
    rw [arrayPass, List.getLast?_concat, List.dropLast_concat]
    rfl
  rw [foldl_passes arrayPass hpass [.array elems] le_rfl, argv_passes]
  refine List.map_congr_left fun i _ => ?_
  rw [Function.iterate_id]
  rfl

/-- Reading by index is going through the list. -/
theorem map_range_eq (f : ℕ → Bytes) (h : ∀ i s, ss[i]? = some s → f i = argBlock s) :
    (List.range ss.length).map f = ss.map argBlock := by
  refine List.ext_getElem (by simp) fun i h₁ h₂ => ?_
  rw [List.length_map] at h₂
  rw [List.getElem_map, List.getElem_range, List.getElem_map]
  exact h i _ (List.getElem?_eq_getElem h₂)

/-- **Both ways to give the arguments are the same exactly if** the second half
of them are empty strings. -/
theorem sameArgv_iff (hss : ss ≠ []) :
    SameArgv ss ↔ ∀ i s, ss[i]? = some s → ss.length ≤ 2 * i → s = [] := by
  have hmap : ss.map PsValue.string ≠ [] := by simpa using hss
  obtain ⟨a, ha, hargv⟩ := stackPasses hmap
  obtain ⟨b, hb, hargvArray⟩ := arrayPasses hmap
  rw [List.length_map] at hargv hargvArray
  have harray : argv b = ss.map argBlock := by
    rw [hargvArray]
    refine map_range_eq _ fun i s hs => ?_
    rw [List.getD_eq_getElem?_getD, List.getElem?_map, hs]
    rfl
  constructor
  · rintro ⟨a', b', ha', -, -, hargv'⟩ i s hs hi
    obtain rfl := Except.ok.inj (ha.symm.trans ha')
    have hget := congrArg (·[i]?) (hargv.symm.trans hargv')
    have hlt : i < ss.length := (List.getElem?_eq_some_iff.1 hs).1
    simp only [List.getElem?_map, hs, List.getElem?_range hlt, Option.map_some,
      if_neg (show ¬i < ss.length - i by omega), Option.some.injEq] at hget
    exact (List.append_cancel_right hget).symm
  · intro hhalf
    have hstack : argv a = ss.map argBlock := by
      rw [hargv]
      refine map_range_eq _ fun i s hs => ?_
      rw [List.getElem?_map, hs]
      split_ifs with hi
      · rfl
      · rw [hhalf i s hs (by omega)]
        rfl
    exact ⟨a, b, ha, hb, hstack.trans harray.symm, hstack⟩

/-- The hypothesis is satisfiable, for one argument. -/
theorem sameArgv_iff_uptime : SameArgv [ascii "uptime"] ↔
    ∀ i s, [ascii "uptime"][i]? = some s → [ascii "uptime"].length ≤ 2 * i → s = [] :=
  sameArgv_iff (by decide)

/-- Of two arguments the second one is lost. -/
theorem psOpenArgs_second :
    psOpenArgs (.values [.string (ascii "ls"), .string (ascii "-l")]) =
        .ok [some (ascii "ls" ++ [0]), some [0], none] ∧
      ¬SameArgv [ascii "ls", ascii "-l"] := by
  have hargs : psOpenArgs (.values [.string (ascii "ls"), .string (ascii "-l")]) =
      .ok [some (ascii "ls" ++ [0]), some [0], none] := rfl
  refine ⟨hargs, ?_⟩
  rintro ⟨a, b, ha, -, -, hargv⟩
  obtain rfl := Except.ok.inj (hargs.symm.trans ha)
  exact absurd hargv (by decide)

end Passes

end Pylib
end Dukserver
