/-
# The component stack of `normpath`

`duktape/dukpylib.c`, the array of pointers that `_helper_path_normpath` has its components on
(lines 354-460), the blocks that they are in, and the memory of the path that the result is
written to.  Each access to the array is noted with what `depth` and `max_depth` were.  An access
beyond the end of the array, of a block or of the path is a fault, and so is a second
`duk_free_raw` of a block.  The sizes are below the bounds of `int`, and no allocation fails.

`Holds` says what is on the stack and which blocks there are, and each operation has a lemma.
-/

import Dukserver.Http.Common
import Dukserver.Lib.Block
import Dukserver.Lib.Effects
import Dukserver.Pylib.Join

namespace Dukserver
namespace Pylib
namespace NormpathStack

open Http (Fault)
open Lib (Block Bytes Heap cstr)
open Lib.Effects

/-- What an access to the array is for. -/
inductive Use
  | read
  /-- The pointer that has just been pushed is read from the array. -/
  | readBack
  | write
  deriving DecidableEq, Repr

/-- An access to `stack[index]`, and the state it is made in. -/
structure Access where
  use : Use
  index : ℕ
  depth : ℕ
  maxDepth : ℕ
  deriving DecidableEq, Repr

/-- The variables of the function, and memory. -/
structure State where
  stack : Block ℕ
  maxDepth : ℕ
  depth : ℕ
  heap : Heap UInt8
  s : Bytes
  log : List Access
  deriving DecidableEq, Repr

/-- A part of the function. -/
abbrev Norm (α : Type) := Prog Fault State α

/-- An access is noted. -/
def note (use : Use) (i : ℕ) : Norm PUnit :=
  modify fun w => { w with log := w.log ++ [⟨use, i, w.depth, w.maxDepth⟩] }

/-- `stack[i]`. -/
def readStack (use : Use) (i : ℕ) : Norm ℕ := do
  note use i
  let w ← get
  match w.stack[i]? with
  | none => throw .outOfBounds
  | some none => throw .uninitialised
  | some (some p) => return p

/-- `stack[i] = p`. -/
def writeStack (i p : ℕ) : Norm PUnit := do
  note .write i
  let w ← get
  if i < w.stack.length then set { w with stack := w.stack.set i (some p) }
  else throw .outOfBounds

/-- `duk_alloc_raw`. -/
def dukAllocRaw (n : ℕ) : Norm ℕ := do
  let w ← get
  set { w with heap := w.heap ++ [some (Block.fresh n)] }
  return w.heap.length

/-- `duk_free_raw`. -/
def dukFreeRaw (p : ℕ) : Norm PUnit := do
  let w ← get
  match w.heap[p]? with
  | some (some _) => set { w with heap := w.heap.set p none }
  | _ => throw .doubleFree

/-- The block at `p`. -/
def block (p : ℕ) : Norm (Block UInt8) := do
  let w ← get
  match w.heap[p]? with
  | some (some b) => return b
  | _ => throw .useAfterFree

/-- `memset` and `memcpy` to the start of the block at `p`. -/
def storeBlock (p : ℕ) (bytes : Bytes) : Norm PUnit := do
  let b ← block p
  if bytes.length ≤ b.length then
    modify fun w => { w with heap := w.heap.set p (some (b.write 0 bytes)) }
  else throw .outOfBounds

/-- The string at `p`, as `strcmp`, `strlen` and `memcpy` read it. -/
def loadString (p : ℕ) : Norm Bytes := do
  let b ← block p
  match b.read 0 b.length with
  | none => throw .uninitialised
  | some bytes => if 0 ∈ bytes then return cstr bytes else throw .outOfBounds

/-- The string of `stack[i]`. -/
def stringAt (i : ℕ) : Norm Bytes := do
  let p ← readStack .read i
  loadString p

/-- `duk_free_raw(ctx, stack[i])`. -/
def freeAt (i : ℕ) : Norm PUnit := do
  let p ← readStack .read i
  dukFreeRaw p

/-- Bytes are written to the path from index `p` on. -/
def storePath (p : ℕ) (bytes : Bytes) : Norm PUnit := do
  let w ← get
  if p + bytes.length ≤ w.s.length then set { w with s := copyTo w.s p bytes }
  else throw .outOfBounds

/-- The test at the top of a pass of the first loop. -/
def growStack : Norm PUnit := do
  let w ← get
  if w.depth == w.maxDepth - 1 then
    set { w with maxDepth := w.maxDepth * 2, stack := w.stack.resize (w.maxDepth * 2) }

/-- The statements that push a component. -/
def pushComponent (name : Bytes) : Norm PUnit := do
  let w ← get
  let p ← dukAllocRaw (name.length + 1)
  writeStack w.depth p
  let q ← readStack .readBack w.depth
  storeBlock q (List.replicate (name.length + 1) 0)
  let q ← readStack .readBack w.depth
  storeBlock q name
  modify fun w => { w with depth := w.depth + 1 }

/-- The loops that move the entries from index `j` on, `n` of them, by `k`. -/
def shiftStack (k : ℕ) : ℕ → ℕ → Norm PUnit
  | _, 0 => return ⟨⟩
  | j, n + 1 => do
    let p ← readStack .read j
    writeStack (j - k) p
    shiftStack k (j + 1) n

/-- The entries behind index `i` are moved by `k`, and `depth` is less by `k`. -/
def dropEntries (k i : ℕ) : Norm PUnit := do
  let w ← get
  shiftStack k (i + 1) (w.depth - (i + 1))
  modify fun w => { w with depth := w.depth - k }

/-- The state behind the allocation of the array, for a path. -/
def start (s : Bytes) : State := ⟨Block.fresh 128, 128, 0, [], s, []⟩

/-! ### What there is on the stack -/

/-- Where an access may be made. -/
def Use.Allows : Use → ℕ → ℕ → Prop
  | .read, i, depth => i < depth
  | .readBack, i, depth => i = depth
  | .write, _, _ => True

/-- The access is below `max_depth`, and below `depth` if it reads; the pointer
that has just been pushed is read at `depth`. -/
def Access.InBounds (a : Access) : Prop := a.index < a.maxDepth ∧ a.use.Allows a.index a.depth

/-- What is known of a state: the pointers that the array starts with, and the
blocks. -/
structure View where
  maxDepth : ℕ
  ids : List ℕ
  blocks : List (ℕ × Block UInt8)
  depth : ℕ
  s : Bytes

/-- The state is as the view says, and each access so far was in bounds. -/
structure Holds (w : State) (v : View) : Prop where
  maxDepth : w.maxDepth = v.maxDepth
  size : w.stack.length = v.maxDepth
  ids : w.stack.Starts v.ids
  live : w.heap.Live v.blocks
  depth : w.depth = v.depth
  s : w.s = v.s
  log : ∀ a ∈ w.log, a.InBounds

section Operations

variable {w : State} {v : View} {use : Use} {i p : ℕ} {b : Block UInt8} {ids : List ℕ}
  {blocks : List (ℕ × Block UInt8)} {name bytes : Bytes}

/-- The pointers of the stack are within the array. -/
theorem Holds.lt (h : Holds w v) (hi : i < v.ids.length) : i < v.maxDepth := by
  have hle := h.ids.le
  rw [h.size] at hle
  omega

/-- Noting an access changes nothing else. -/
theorem exec_note (use : Use) (i : ℕ) (w : State) : exec (note use i) w =
    (.ok ⟨⟩, { w with log := w.log ++ [⟨use, i, w.depth, w.maxDepth⟩] }) := rfl

/-- An access that is in bounds is noted, and all that are noted are in bounds. -/
theorem Holds.note (h : Holds w v) (use : Use) (hi : i < v.maxDepth)
    (huse : use.Allows i v.depth) :
    Holds { w with log := w.log ++ [⟨use, i, w.depth, w.maxDepth⟩] } v where
  maxDepth := h.maxDepth
  size := h.size
  ids := h.ids
  live := h.live
  depth := h.depth
  s := h.s
  log a ha := by
    rcases List.mem_append.1 ha with ha | ha
    · exact h.log a ha
    · rw [List.mem_singleton.1 ha, Access.InBounds, h.depth, h.maxDepth]
      exact ⟨hi, huse⟩

/-- **A pointer is read**, at an index the access may be made at.  Which indices
these are depends on what the access is for. -/
theorem readStack_ends (h : Holds w v) (use : Use) (hi : v.ids[i]? = some p)
    (huse : use.Allows i v.depth) : Ends (readStack use i) w fun q t => p = q ∧ Holds t v := by
  have hlt := h.lt (List.getElem?_eq_some_iff.1 hi).1
  refine ends_of_exec ?_ ⟨rfl, h.note use hlt huse⟩
  rw [readStack, exec_bind_ok (exec_note ..),
    exec_bind_ok exec_get, h.ids.getElem? hi]
  rfl

/-- **A pointer is written**, among those the array starts with or directly
behind them. -/
theorem writeStack_ends (h : Holds w v) (hi : i ≤ v.ids.length) (hmax : i < v.maxDepth) (p : ℕ) :
    Ends (writeStack i p) w fun _ t =>
      Holds t { v with ids := v.ids.take i ++ p :: v.ids.drop (i + 1) } := by
  have hexec : exec (writeStack i p) w = (.ok ⟨⟩, { w with
      log := w.log ++ [⟨.write, i, w.depth, w.maxDepth⟩], stack := w.stack.set i (some p) }) := by
    rw [writeStack, exec_bind_ok (exec_note ..),
      exec_bind_ok exec_get, if_pos (by rwa [h.size])]
    rfl
  have hnoted := h.note .write hmax trivial
  refine ends_of_exec hexec ⟨h.maxDepth, ?_, ?_, h.live, h.depth, h.s, hnoted.log⟩
  · change (w.stack.set i (some p)).length = v.maxDepth
    rw [List.length_set, h.size]
  · exact h.ids.set hi (by rwa [h.size]) p

/-- **A block is allocated**, at a position that no block has had. -/
theorem dukAllocRaw_ends (h : Holds w v) (n : ℕ) :
    Ends (dukAllocRaw n) w fun p t =>
      Holds t { v with blocks := (p, Block.fresh n) :: v.blocks } :=
  ends_of_exec rfl
    ⟨h.maxDepth, h.size, h.ids, h.live.alloc _, h.depth, h.s, h.log⟩

/-- **A block that there is can be freed**, and is not there afterwards.  A
second call with the same address would be the fault of a double free. -/
theorem dukFreeRaw_ends (h : Holds w v) (hp : v.blocks.Perm ((p, b) :: blocks)) :
    Ends (dukFreeRaw p) w fun _ t => Holds t { v with blocks } := by
  have hlive := h.live.perm hp
  have hexec : exec (dukFreeRaw p) w = (.ok ⟨⟩, { w with heap := w.heap.set p none }) := by
    rw [dukFreeRaw, exec_bind_ok exec_get,
      hlive.getElem? (List.mem_cons_self ..)]
    rfl
  exact ends_of_exec hexec
    ⟨h.maxDepth, h.size, h.ids, hlive.free, h.depth, h.s, h.log⟩

/-- A block that there is can be used. -/
theorem exec_block (h : Holds w v) (hp : (p, b) ∈ v.blocks) :
    exec (block p) w = (.ok b, w) := by
  rw [block, exec_bind_ok exec_get, h.live.getElem? hp]
  rfl

/-- **A block is written**, if it has room for the bytes.  Behind them the block
keeps what it had. -/
theorem storeBlock_ends (h : Holds w v) (hp : v.blocks = (p, b) :: blocks)
    (hroom : bytes.length ≤ b.length) :
    Ends (storeBlock p bytes) w fun _ t =>
      Holds t { v with blocks := (p, b.write 0 bytes) :: blocks } := by
  have hlive := h.live
  rw [hp] at hlive
  have hexec : exec (storeBlock p bytes) w =
      (.ok ⟨⟩, { w with heap := w.heap.set p (some (b.write 0 bytes)) }) := by
    rw [storeBlock, exec_bind_ok (exec_block h (hp ▸ List.mem_cons_self ..)),
      if_pos hroom]
    rfl
  exact ends_of_exec hexec
    ⟨h.maxDepth, h.size, h.ids, hlive.store _, h.depth, h.s, h.log⟩

/-- The block of a component. -/
def nameBlock (name : Bytes) : Block UInt8 := (name ++ [0]).map some

/-- **The string of a component is read**, up to the NUL that it was stored
with. -/
theorem loadString_ends (h : Holds w v) (hp : (p, nameBlock name) ∈ v.blocks) :
    Ends (loadString p) w fun t u => t = cstr name ∧ Holds u v := by
  have hread : (nameBlock name).read 0 (nameBlock name).length = some (name ++ [0]) := by
    have hstarts : (nameBlock name).Starts (name ++ [0]) := List.prefix_rfl
    have hlength : (nameBlock name).length = (name ++ [0]).length := List.length_map _
    rw [hlength, hstarts.read]
  have hcstr : cstr (name ++ [0]) = cstr name := by
    by_cases hnul : 0 ∈ name
    · exact Lib.cstr_append_of_mem _ hnul
    · rw [Lib.cstr_append_of_not_mem _ hnul, Lib.cstr_of_not_mem hnul]
      exact List.append_nil name
  refine ends_of_exec ?_ ⟨hcstr, h⟩
  rw [loadString, exec_bind_ok (exec_block h hp), hread]
  simp only []
  rw [if_pos (List.mem_append_right _ (List.mem_singleton_self 0))]
  rfl

/-- The same through the array: the pointer is read, and then the string. -/
theorem stringAt_ends (h : Holds w v) (hi : v.ids[i]? = some p) (hdepth : i < v.depth)
    (hp : (p, nameBlock name) ∈ v.blocks) :
    Ends (stringAt i) w fun t u => t = cstr name ∧ Holds u v := by
  refine (readStack_ends h .read hi hdepth).seq ?_
  rintro _ t ⟨rfl, ht⟩
  exact loadString_ends ht hp

/-- Its block is freed through the array. -/
theorem freeAt_ends (h : Holds w v) (hi : v.ids[i]? = some p) (hdepth : i < v.depth)
    (hp : v.blocks.Perm ((p, b) :: blocks)) :
    Ends (freeAt i) w fun _ t => Holds t { v with blocks } := by
  refine (readStack_ends h .read hi hdepth).seq ?_
  rintro _ t ⟨rfl, ht⟩
  exact dukFreeRaw_ends ht hp

/-- **The path is written** where it has room.  It is written into the argument
itself, which is never longer afterwards. -/
theorem storePath_ends (h : Holds w v) (hroom : p + bytes.length ≤ v.s.length) :
    Ends (storePath p bytes) w fun _ t => Holds t { v with s := copyTo v.s p bytes } := by
  have hexec : exec (storePath p bytes) w = (.ok ⟨⟩, { w with s := copyTo w.s p bytes }) := by
    rw [storePath, exec_bind_ok exec_get, if_pos (by rwa [h.s])]
    rfl
  exact ends_of_exec hexec
    ⟨h.maxDepth, h.size, h.ids, h.live, h.depth, congrArg (copyTo · p bytes) h.s, h.log⟩

/-- **The array is made longer**, so that a pointer can be pushed, and another
one behind the loop. -/
theorem growStack_ends (h : Holds w v) (hdepth : v.depth < v.maxDepth)
    (hids : v.ids.length ≤ v.depth) :
    Ends growStack w fun _ t =>
      ∃ maxDepth, v.depth + 1 < maxDepth ∧ Holds t { v with maxDepth } := by
  have hmax := h.maxDepth
  have hsame := h.depth
  by_cases hfull : w.depth = w.maxDepth - 1
  · have hexec : exec growStack w = (.ok ⟨⟩,
        { w with maxDepth := w.maxDepth * 2, stack := w.stack.resize (w.maxDepth * 2) }) := by
      rw [growStack, exec_bind_ok exec_get,
        if_pos (beq_iff_eq.2 hfull)]
      rfl
    refine ends_of_exec hexec ⟨w.maxDepth * 2, by omega, rfl, Block.length_resize, ?_,
      h.live, h.depth, h.s, h.log⟩
    exact h.ids.resize (by omega)
  · have hexec : exec growStack w = (.ok ⟨⟩, w) := by
      rw [growStack, exec_bind_ok exec_get,
        if_neg (mt beq_iff_eq.1 hfull)]
      rfl
    exact ends_of_exec hexec ⟨v.maxDepth, by omega, h⟩

/-- The stack may be seen as shorter: what lies behind in the array is not
looked at. -/
theorem Holds.of_prefix (h : Holds w v) (hids : ids <+: v.ids) : Holds w { v with ids } :=
  ⟨h.maxDepth, h.size, (hids.map some).trans h.ids, h.live, h.depth, h.s, h.log⟩

/-- A component and its block. -/
def entry (c : ℕ × Bytes) : ℕ × Block UInt8 := (c.1, nameBlock c.2)

/-- Components on the stack.  Those that are `live` have their blocks. -/
def liveView (maxDepth : ℕ) (names live : List (ℕ × Bytes)) (s : Bytes) : View where
  maxDepth := maxDepth
  ids := names.map Prod.fst
  blocks := live.map entry
  depth := names.length
  s := s

/-- Components on the stack, each with its block. -/
def stackView (maxDepth : ℕ) (names : List (ℕ × Bytes)) (s : Bytes) : View :=
  liveView maxDepth names names s

variable {names : List (ℕ × Bytes)} {maxDepth : ℕ} {s : Bytes}

/-- The zeros, and the name in front of the last one: a string. -/
theorem write_nameBlock (name : Bytes) :
    ((Block.fresh (name.length + 1)).write 0 (List.replicate (name.length + 1) 0)).write 0 name =
      nameBlock name := by
  have hzeros : (Block.fresh (name.length + 1)).write 0
      (List.replicate (name.length + 1) (0 : UInt8)) =
        List.replicate (name.length + 1) (some 0) := by
    rw [Block.write_zero (by simp), List.map_replicate,
      List.drop_eq_nil_of_le (by simp), List.append_nil]
  rw [hzeros, Block.write_zero (by simp), List.drop_replicate, Nat.add_sub_cancel_left, nameBlock,
    List.map_append]
  rfl

/-- **A component is pushed**, in a block of its own, if the array has room for
its pointer. -/
theorem pushComponent_ends (h : Holds w (stackView maxDepth names s))
    (hroom : names.length < maxDepth) (name : Bytes) : Ends (pushComponent name) w fun _ t =>
      ∃ p, Holds t (stackView maxDepth (names ++ [(p, name)]) s) := by
  have hlength : (names.map Prod.fst).length = names.length := List.length_map _
  have hdepth : w.depth = names.length := h.depth
  refine Ends.bind (ends_get ?_)
  rw [hdepth]
  refine (dukAllocRaw_ends h (name.length + 1)).seq fun p t h => ?_
  refine (writeStack_ends h hlength.ge hroom p).seq fun _ t h => ?_
  -- the pointer is behind those of the stack, where `depth` does not count it yet
  have hids : (names.map Prod.fst).take names.length ++
      p :: (names.map Prod.fst).drop (names.length + 1) = names.map Prod.fst ++ [p] := by
    rw [List.take_of_length_le hlength.le, List.drop_eq_nil_of_le (by omega)]
  have hp : (names.map Prod.fst ++ [p])[names.length]? = some p := by
    rw [List.getElem?_append_right hlength.le, hlength, Nat.sub_self]
    rfl
  replace h : Holds t ⟨maxDepth, names.map Prod.fst ++ [p], (p, Block.fresh (name.length + 1)) ::
      names.map entry, names.length, s⟩ := by
    rw [← hids]
    exact h
  refine (readStack_ends h .readBack hp rfl).seq ?_
  rintro _ t ⟨rfl, h⟩
  refine (storeBlock_ends h rfl (by simp)).seq fun _ t h => ?_
  refine (readStack_ends h .readBack hp rfl).seq ?_
  rintro _ t ⟨rfl, h⟩
  refine (storeBlock_ends h rfl (by simp)).seq fun _ t h => ?_
  rw [write_nameBlock] at h
  refine ends_modify ⟨p, h.maxDepth, h.size, ?_, ?_, ?_, h.s, h.log⟩
  · change t.stack.Starts ((names ++ [(p, name)]).map Prod.fst)
    rw [List.map_append]
    exact h.ids
  · refine h.live.perm (List.Perm.trans ?_ (List.Perm.of_eq List.map_append.symm))
    exact (List.perm_append_singleton _ _).symm
  · change t.depth + 1 = (names ++ [_]).length
    rw [h.depth, List.length_append, List.length_singleton]

/-! ### Entries that are taken off -/

/-- **The entries behind a hole are moved into it**, one after the other, by
induction on those that are left. -/
theorem shiftStack_ends {before hole moved : List ℕ}
    (h : Holds w { v with ids := before ++ hole ++ moved }) (hhole : hole ≠ [])
    (hdepth : (before ++ hole ++ moved).length ≤ v.depth) :
    Ends (shiftStack hole.length (before.length + hole.length) moved.length) w fun _ t =>
      Holds t { v with ids := before ++ moved } := by
  induction moved generalizing w before hole with
  | nil =>
    have hstart : before <+: before ++ hole ++ [] := by simp
    have hheld := h.of_prefix hstart
    refine ends_pure ?_
    rw [List.append_nil]
    exact hheld
  | cons q moved ih =>
    obtain ⟨c, hole, rfl⟩ := List.exists_cons_of_ne_nil hhole
    have hq : (before ++ c :: hole ++ q :: moved)[before.length + (c :: hole).length]? =
        some q := by
      rw [← List.length_append, List.getElem?_append_right le_rfl, Nat.sub_self]
      rfl
    have hbelow : before.length + (c :: hole).length < v.depth := by
      simp only [List.length_append, List.length_cons] at hdepth ⊢
      omega
    refine (readStack_ends h .read hq hbelow).seq ?_
    rintro _ t ⟨rfl, h⟩
    have hin : before.length < (before ++ c :: hole ++ q :: moved).length := by
      simp only [List.length_append, List.length_cons]
      omega
    rw [Nat.add_sub_cancel]
    refine (writeStack_ends h hin.le (h.lt hin) q).seq fun _ t h => ?_
    have hids : (before ++ c :: hole ++ q :: moved).take before.length ++
        q :: (before ++ c :: hole ++ q :: moved).drop (before.length + 1) =
          (before ++ [q]) ++ (hole ++ [q]) ++ moved := by
      simp [List.drop_append]
    replace h : Holds t { v with ids := (before ++ [q]) ++ (hole ++ [q]) ++ moved } := by
      rw [← hids]
      exact h
    have hlength : (c :: hole).length = (hole ++ [q]).length := by simp
    have hnext : before.length + (c :: hole).length + 1 =
        (before ++ [q]).length + (hole ++ [q]).length := by
      simp only [List.length_append, List.length_cons, List.length_nil]
      omega
    rw [hnext, hlength, List.append_cons before q moved]
    refine ih h (List.append_ne_nil_of_right_ne_nil _ (List.cons_ne_nil q [])) (le_trans ?_ hdepth)
    simp only [List.length_append, List.length_cons, List.length_nil]
    omega

/-- **The array ends before the hole**, and `depth` is less by its length: the
entries behind it are moved first. -/
theorem dropEntries_ends {before hole moved : List ℕ} (h : Holds w { v with
      ids := before ++ hole ++ moved, depth := (before ++ hole ++ moved).length })
    (hhole : hole ≠ []) (hi : i + 1 = before.length + hole.length) :
    Ends (dropEntries hole.length i) w fun _ t =>
      Holds t { v with ids := before ++ moved, depth := (before ++ moved).length } := by
  have hdepth : w.depth - (i + 1) = moved.length := by
    rw [h.depth, hi, List.length_append, List.length_append, Nat.add_sub_cancel_left]
  rw [dropEntries]
  refine Ends.bind (ends_get ?_)
  rw [hdepth, hi]
  refine (shiftStack_ends (v := { v with depth := (before ++ hole ++ moved).length }) h hhole
    le_rfl).seq fun _ t h => ?_
  refine ends_modify ⟨h.maxDepth, h.size, h.ids, h.live, ?_, h.s, h.log⟩
  change t.depth - hole.length = (before ++ moved).length
  rw [h.depth]
  simp only [List.length_append]
  omega

/-- The string of a component. -/
def text (c : ℕ × Bytes) : Bytes := cstr c.2

variable {live before after hole moved : List (ℕ × Bytes)} {c : ℕ × Bytes}

/-- The component at an index is read, if its block is not freed yet. -/
theorem text_ends (h : Holds w (liveView maxDepth names live s)) (hi : names[i]? = some c)
    (hc : c ∈ live) : Ends (stringAt i) w fun t u =>
      t = text c ∧ Holds u (liveView maxDepth names live s) := by
  have hid : (names.map Prod.fst)[i]? = some c.1 := by rw [List.getElem?_map, hi, Option.map_some]
  exact stringAt_ends h hid (List.getElem?_eq_some_iff.1 hi).1 (List.mem_map_of_mem hc)

/-- **A component is freed**, and not once more: it is not among the live ones
afterwards. -/
theorem freeEntry_ends (h : Holds w (liveView maxDepth names (before ++ c :: after) s))
    (hi : names[i]? = some c) :
    Ends (freeAt i) w fun _ t => Holds t (liveView maxDepth names (before ++ after) s) := by
  have hid : (names.map Prod.fst)[i]? = some c.1 := by rw [List.getElem?_map, hi, Option.map_some]
  exact freeAt_ends h hid (List.getElem?_eq_some_iff.1 hi).1 (List.perm_middle.map entry)

/-- **Components whose blocks are freed are taken off the stack.**  What was
behind them is moved up. -/
theorem dropHole_ends
    (h : Holds w (liveView maxDepth (before ++ hole ++ moved) (before ++ moved) s))
    (hhole : hole ≠ []) (hi : i + 1 = before.length + hole.length) :
    Ends (dropEntries hole.length i) w fun _ t =>
      Holds t (stackView maxDepth (before ++ moved) s) := by
  have hids : (before ++ hole ++ moved).map Prod.fst =
      before.map Prod.fst ++ hole.map Prod.fst ++ moved.map Prod.fst := by simp
  replace h : Holds w { stackView maxDepth (before ++ moved) s with
      ids := before.map Prod.fst ++ hole.map Prod.fst ++ moved.map Prod.fst
      depth := (before.map Prod.fst ++ hole.map Prod.fst ++ moved.map Prod.fst).length } := by
    rw [← hids, List.length_map]
    exact h
  have hdrop := dropEntries_ends h (mt List.map_eq_nil_iff.1 hhole)
    (by rwa [List.length_map, List.length_map])
  rw [List.length_map, ← List.map_append, List.length_map] at hdrop
  exact hdrop

end Operations

end NormpathStack
end Pylib
end Dukserver
