/-
# The command line of Windows

`duktape/subprocess_w32.c`, `_combine_args` (lines 300-326).  A pass asks for room for one
argument and writes it, then a space if another one follows, and the NUL.  What is written is
noted with the size of the block at that moment.  The sizes are below the bounds of `int`, and
no allocation fails.
-/

import Dukserver.Lib.Block
import Dukserver.Lib.Bytes

namespace Dukserver
namespace Pylib

open Lib (Block Bytes ascii cstr)

/-- `cmdline` and `cmdline_size`.  `writes` are the indices written so far, each
with the size of the block. -/
structure CmdLine where
  mem : Block UInt8
  size : ℕ
  writes : List (ℕ × ℕ)
  deriving DecidableEq, Repr

/-- Bytes are written from `cmdline_size` on. -/
def CmdLine.store (c : CmdLine) (bytes : Bytes) : CmdLine :=
  { c with
    mem := c.mem.write c.size bytes
    writes := c.writes ++ (List.range' c.size bytes.length).map fun i => (i, c.mem.length) }

/-- Bytes are written and counted. -/
def CmdLine.append (c : CmdLine) (bytes : Bytes) : CmdLine :=
  { c.store bytes with size := c.size + bytes.length }

/-- The block that a pass works on. -/
def roomFor (cmdline : Option CmdLine) (n : ℕ) : CmdLine :=
  match cmdline with
  | none => ⟨Block.fresh (n + 1), 0, []⟩
  | some c => { c with mem := c.mem.resize (c.size + 1 + n + 1) }

/-- A pass; `more` is whether another argument follows. -/
def combinePass (cmdline : Option CmdLine) (arg : Bytes) (more : Bool) : CmdLine :=
  let c := (roomFor cmdline (cstr arg).length).append (cstr arg)
  let c := if more then c.append [32] else c
  c.store [0]

/-- The passes, one for each argument. -/
def combineLoop : Option CmdLine → List Bytes → Option CmdLine
  | cmdline, [] => cmdline
  | cmdline, arg :: args => combineLoop (some (combinePass cmdline arg !args.isEmpty)) args

/-- `_combine_args`; `none` is `NULL`. -/
def combineArgs (args : List Bytes) : Option CmdLine := combineLoop none args

/-- The arguments, with single spaces between them. -/
def joinedArgs (args : List Bytes) : Bytes := [32].intercalate (args.map cstr)

/-- The text is in the block, with its NUL. -/
def CmdLine.Holds (c : CmdLine) (text : Bytes) : Prop := c.mem.Starts (text ++ [0])

/-- Each byte was written into the block. -/
def CmdLine.InBlock (c : CmdLine) : Prop := ∀ w ∈ c.writes, w.1 < w.2

/-- What was written outside of the block. -/
def CmdLine.outside (c : CmdLine) : List (ℕ × ℕ) := c.writes.filter fun w => decide (w.2 ≤ w.1)

/-- What a pass writes behind its argument, without the NUL. -/
def spacer (more : Bool) : Bytes := if more then [32] else []

/-- The text so far. -/
structure CmdLine.Has (c : CmdLine) (text : Bytes) : Prop where
  size : c.size = text.length
  starts : c.mem.Starts text

section Passes

variable {c : CmdLine} {text bytes arg : Bytes} {args : List Bytes}

/-- Everything is in the block if nothing is outside. -/
theorem CmdLine.inBlock_iff : c.InBlock ↔ c.outside = [] := by
  simp [InBlock, outside, List.filter_eq_nil_iff]

/-- What is written into the block is not outside of it.  So the list of such
writes stays what it was. -/
theorem CmdLine.outside_store (hroom : c.size + bytes.length ≤ c.mem.length) :
    (c.store bytes).outside = c.outside := by
  have hin : ((List.range' c.size bytes.length).map fun i => (i, c.mem.length)).filter
      (fun w => decide (w.2 ≤ w.1)) = [] := by
    rw [List.filter_eq_nil_iff]
    rintro w hw
    obtain ⟨i, hi, rfl⟩ := List.mem_map.1 hw
    have hlt := (List.mem_range'_1.1 hi).2
    simp only [decide_eq_true_eq, not_le]
    omega
  rw [outside, store, List.filter_append, hin, List.append_nil, outside]

/-- What is written at the end of the block is outside, and is noted with the
size it has. -/
theorem CmdLine.outside_store_end (hend : c.size = c.mem.length) (b : UInt8) :
    (c.store [b]).outside = c.outside ++ [(c.size, c.size)] := by
  rw [outside, store, List.filter_append, List.length_singleton, List.range'_one,
    List.map_singleton, ← hend, List.filter_singleton, decide_eq_true le_rfl]
  rfl

/-- Bytes that have room are appended to the text.  What was written before ends
where they begin, and stays. -/
theorem CmdLine.Has.append (h : c.Has text)
    (hroom : text.length + bytes.length ≤ c.mem.length) : (c.append bytes).Has (text ++ bytes) where
  size := by rw [List.length_append, ← h.size]; rfl
  starts := by
    change (c.mem.write c.size bytes).Starts (text ++ bytes)
    rw [h.size]
    exact h.starts.write hroom

/-- With room for the NUL the block holds the text as a string. -/
theorem CmdLine.Has.holds (h : c.Has text) (hroom : text.length < c.mem.length) :
    (c.store [0]).Holds text := by
  change (c.mem.write c.size [0]).Starts (text ++ [0])
  rw [h.size]
  exact h.starts.write hroom

/-- The NUL does not count: the next pass writes over it. -/
theorem CmdLine.Has.store (h : c.Has text) : (c.store bytes).Has text where
  size := h.size
  starts := h.starts.write_behind h.size.ge bytes

/-- The space behind an argument is one byte, or none behind the last. -/
theorem length_spacer_le (more : Bool) : (spacer more).length ≤ 1 := by
  cases more <;> decide

/-- The part of a pass behind the request for room: the argument, the space and
the NUL. -/
theorem combinePass_eq (cmdline : Option CmdLine) (arg : Bytes) (more : Bool) :
    combinePass cmdline arg more =
      (((roomFor cmdline (cstr arg).length).append (cstr arg)).append (spacer more)).store [0] := by
  cases more with
  | true => rfl
  | false =>
    have hnil : ∀ c : CmdLine, c.append [] = c := by
      rintro ⟨mem, size, writes⟩
      simp [CmdLine.append, CmdLine.store, Block.write]
    exact congrArg (CmdLine.store · [0]) (hnil _).symm

/-- **The argument and the space of a pass**, in a block with room for them.
The two are written by two calls, and neither of them leaves the block. -/
theorem CmdLine.Has.words (h : c.Has text) (arg : Bytes) (more : Bool)
    (hroom : text.length + (arg.length + (spacer more).length) ≤ c.mem.length) :
    ((c.append arg).append (spacer more)).Has (text ++ arg ++ spacer more) ∧
      ((c.append arg).append (spacer more)).outside = c.outside := by
  have harg : (c.append arg).Has (text ++ arg) := h.append (by omega)
  have hlength : (c.append arg).mem.length = c.mem.length := Block.length_write
  have hspacer : (text ++ arg).length + (spacer more).length ≤ (c.append arg).mem.length := by
    rw [hlength, List.length_append]
    omega
  refine ⟨harg.append hspacer, ?_⟩
  calc ((c.append arg).append (spacer more)).outside
      = (c.append arg).outside := CmdLine.outside_store (by rwa [harg.size])
    _ = c.outside := CmdLine.outside_store (by rw [h.size]; omega)

/-- **A pass with room for the NUL**: everything is written into the block, and
the next pass begins at the NUL. -/
theorem CmdLine.Has.pass (h : c.Has text) (arg : Bytes) (more : Bool)
    (hroom : text.length + (arg.length + (spacer more).length) < c.mem.length) :
    (((c.append arg).append (spacer more)).store [0]).Has (text ++ arg ++ spacer more) ∧
      (((c.append arg).append (spacer more)).store [0]).Holds (text ++ arg ++ spacer more) ∧
      (((c.append arg).append (spacer more)).store [0]).outside = c.outside := by
  obtain ⟨hhas, houtside⟩ := h.words arg more hroom.le
  have hlength : ((c.append arg).append (spacer more)).mem.length = c.mem.length :=
    Block.length_write.trans Block.length_write
  have hnul : (text ++ arg ++ spacer more).length <
      ((c.append arg).append (spacer more)).mem.length := by
    rw [hlength, List.length_append, List.length_append]
    omega
  refine ⟨hhas.store, hhas.holds hnul, ?_⟩
  rw [← houtside]
  exact CmdLine.outside_store (by rw [hhas.size]; exact hnul)

/-- **A later pass** writes into its block: it asks for two bytes more than its
argument has. -/
theorem CmdLine.Has.later (h : c.Has text) (arg : Bytes) (more : Bool) :
    (combinePass (some c) arg more).Has (text ++ cstr arg ++ spacer more) ∧
      (combinePass (some c) arg more).Holds (text ++ cstr arg ++ spacer more) ∧
      (combinePass (some c) arg more).outside = c.outside := by
  have hspacer := length_spacer_le more
  have hroomFor : (roomFor (some c) (cstr arg).length).Has text :=
    ⟨h.size, h.starts.resize (by rw [h.size]; omega)⟩
  have hlength : (roomFor (some c) (cstr arg).length).mem.length =
      c.size + 1 + (cstr arg).length + 1 := Block.length_resize
  have hpass := hroomFor.pass (cstr arg) more (by rw [hlength, h.size]; omega)
  rw [combinePass_eq]
  exact hpass

/-- Before the first pass the text is empty. -/
theorem has_fresh (n : ℕ) : (roomFor none n).Has [] := ⟨rfl, Lib.Block.starts_nil _⟩

/-- The first block is one byte longer than its argument, so it has room for the
NUL or for the space, and not for both. -/
theorem length_roomFor_none (n : ℕ) : (roomFor none n).mem.length = n + 1 := Block.length_fresh

/-- **The first pass**, if it is the only one: no space is written, and the NUL
fits. -/
theorem combinePass_only (arg : Bytes) :
    (combinePass none arg false).Holds (cstr arg) ∧ (combinePass none arg false).outside = [] := by
  have hpass := (has_fresh (cstr arg).length).pass (cstr arg) false
    (by rw [length_roomFor_none, spacer, if_neg Bool.noConfusion, List.length_nil]; omega)
  rw [List.nil_append, spacer, if_neg Bool.noConfusion, List.append_nil] at hpass
  rw [combinePass_eq]
  exact ⟨hpass.2.1, hpass.2.2⟩

/-- **The first pass** before another one fills the block with the space, and
writes the NUL behind its end. -/
theorem combinePass_first (arg : Bytes) :
    (combinePass none arg true).Has (cstr arg ++ [32]) ∧
      (combinePass none arg true).outside =
        [((cstr arg).length + 1, (cstr arg).length + 1)] := by
  obtain ⟨hhas, houtside⟩ := (has_fresh (cstr arg).length).words (cstr arg) true
    (by rw [length_roomFor_none, spacer, if_pos rfl, List.length_nil, List.length_singleton]; omega)
  rw [List.nil_append] at hhas
  rw [combinePass_eq]
  refine ⟨hhas.store, ?_⟩
  have hlength : (((roomFor none (cstr arg).length).append (cstr arg)).append
      (spacer true)).mem.length = (cstr arg).length + 1 :=
    (Block.length_write.trans Block.length_write).trans Block.length_fresh
  have hsize : (((roomFor none (cstr arg).length).append (cstr arg)).append (spacer true)).size =
      (cstr arg).length + 1 := hhas.size.trans List.length_append
  rw [CmdLine.outside_store_end (hsize.trans hlength.symm), houtside, hsize]
  rfl

/-- One argument is the whole line. -/
theorem joinedArgs_singleton (arg : Bytes) : joinedArgs [arg] = cstr arg :=
  List.intercalate_singleton ..

/-- Otherwise it stands before the others, with a space between. -/
theorem joinedArgs_cons (arg : Bytes) (hargs : args ≠ []) :
    joinedArgs (arg :: args) = cstr arg ++ [32] ++ joinedArgs args := by
  obtain ⟨arg', args, rfl⟩ := List.exists_cons_of_ne_nil hargs
  simp [joinedArgs, List.intercalate_cons_cons]

/-- **The later passes** append the arguments, and write into their blocks, by
induction on the arguments that are left. -/
theorem CmdLine.Has.loop (hargs : args ≠ []) (h : c.Has text) :
    ∃ d, combineLoop (some c) args = some d ∧ d.Holds (text ++ joinedArgs args) ∧
      d.outside = c.outside := by
  induction args generalizing c text with
  | nil => exact absurd rfl hargs
  | cons arg args ih =>
    obtain ⟨hhas, hholds, houtside⟩ := h.later arg (!args.isEmpty)
    by_cases hlast : args = []
    · subst hlast
      refine ⟨_, rfl, ?_, houtside⟩
      rw [joinedArgs_singleton]
      simpa [spacer] using hholds
    · have hmore : spacer (!args.isEmpty) = [32] := by
        rw [List.isEmpty_eq_false_iff.2 hlast]
        rfl
      rw [hmore] at hhas
      obtain ⟨d, hd, hdholds, hdoutside⟩ := ih hlast hhas
      refine ⟨d, hd, ?_, hdoutside.trans houtside⟩
      rw [joinedArgs_cons arg hlast]
      simpa only [List.append_assoc] using hdholds

/-- **The arguments are joined, and one byte is written outside of a block**,
behind the first one, if there is a second argument. -/
theorem combineArgs_cons (arg : Bytes) (args : List Bytes) :
    ∃ c, combineArgs (arg :: args) = some c ∧ c.Holds (joinedArgs (arg :: args)) ∧
      c.outside = if args = [] then [] else [((cstr arg).length + 1, (cstr arg).length + 1)] := by
  by_cases hargs : args = []
  · subst hargs
    obtain ⟨hholds, houtside⟩ := combinePass_only arg
    refine ⟨_, rfl, ?_, houtside⟩
    rwa [joinedArgs_singleton]
  · have hpass : combineArgs (arg :: args) =
        combineLoop (some (combinePass none arg true)) args := by
      rw [combineArgs, combineLoop, List.isEmpty_eq_false_iff.2 hargs]
      rfl
    obtain ⟨hhas, houtside⟩ := combinePass_first arg
    obtain ⟨d, hd, hholds, hdoutside⟩ := hhas.loop hargs
    refine ⟨d, hpass.trans hd, ?_, ?_⟩
    · rwa [joinedArgs_cons arg hargs]
    · rw [if_neg hargs, hdoutside, houtside]

/-- **Each byte is written into the block if and only if there is one
argument.**  With more, the first pass writes a space where the NUL has room,
and the NUL behind the end; no later pass does. -/
theorem combineArgs_inBlock (hargs : args ≠ []) :
    (∃ c, combineArgs args = some c ∧ c.Holds (joinedArgs args) ∧ c.InBlock) ↔ args.length = 1 := by
  obtain ⟨arg, args, rfl⟩ := List.exists_cons_of_ne_nil hargs
  obtain ⟨c, hc, hholds, houtside⟩ := combineArgs_cons arg args
  rw [List.length_cons, Nat.add_eq_right, List.length_eq_zero_iff]
  constructor
  · rintro ⟨d, hd, -, hin⟩
    rw [CmdLine.inBlock_iff, Option.some.inj (hd.symm.trans hc), houtside] at hin
    by_contra hne
    rw [if_neg hne] at hin
    exact List.cons_ne_nil _ _ hin
  · intro hone
    refine ⟨c, hc, hholds, ?_⟩
    rw [CmdLine.inBlock_iff, houtside, if_pos hone]

/-- The hypothesis is satisfiable. -/
theorem combineArgs_inBlock_ls :
    [ascii "ls"] ≠ [] ∧ ∃ c, combineArgs [ascii "ls"] = some c ∧ c.Holds (joinedArgs [ascii "ls"]) ∧
      c.InBlock :=
  ⟨List.cons_ne_nil _ _, (combineArgs_inBlock (List.cons_ne_nil _ _)).2 rfl⟩

/-- The NUL behind `ls` and a space is the fourth byte of a block of three. -/
theorem combineArgs_two : ∃ c, combineArgs [ascii "ls", ascii "-l"] = some c ∧
    (3, 3) ∈ c.writes ∧ ¬c.InBlock := by
  refine ⟨_, rfl, by decide, ?_⟩
  intro hin
  exact absurd (hin (3, 3) (by decide)) (lt_irrefl 3)

end Passes

end Pylib
end Dukserver
