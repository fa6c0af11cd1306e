/-
# `normpath` in memory

`duktape/dukpylib.c`, `_helper_path_normpath` (lines 354-460), on the stack of
`Pylib.NormpathStack`.  The first loop pushes the components, and the last one is pushed behind
it; the second one takes off what `.` and `..` say; the third one writes what is left to the start
of the path.

Each loop has an invariant, and `helperPathNormpath_ends` says of the whole that it ends without a
fault and does what `Pylib.helperPathNormpath` does.
-/

import Dukserver.Pylib.NormpathStack
import Dukserver.Pylib.Split

namespace Dukserver
namespace Pylib
namespace NormpathStack

open Lib (Block Bytes ascii cstr)
open Lib.Effects

/-- The first loop, in front of the rest of the path; `prev` is the text from
`prev` to `p`.  What it ends with is the last component, without a separator
behind it. -/
def scanLoop : Bytes → Bytes → Norm Bytes
  | [], prev => return prev
  | p :: rest, prev => do
    growStack
    if isSep p && prev ≠ [] then do
      pushComponent prev
      scanLoop rest []
    else scanLoop rest (prev ++ [p])

/-- The first loop, and the component that it ends with. -/
def pushComponents (s : Bytes) : Norm PUnit := do
  let prev ← scanLoop s []
  if prev ≠ [] then pushComponent prev

/-- A pass of the second loop, and the next index. -/
def resolvePass (i : ℕ) : Norm ℕ := do
  let name ← stringAt i
  if name = ascii ".." then
    if 0 < i then do
      freeAt (i - 1)
      freeAt i
      dropEntries 2 i
      return i - 1
    else do
      freeAt i
      dropEntries 1 i
      return i
  else do
    let name ← stringAt i
    if name = ascii "." then do
      freeAt i
      dropEntries 1 i
      return i
    else return i + 1

/-- The second loop, with a bound on the number of its passes. -/
def resolveLoop : ℕ → ℕ → Norm PUnit
  | 0, _ => throw .outOfFuel
  | fuel + 1, i => do
    let w ← get
    if i < w.depth then do
      let i ← resolvePass i
      resolveLoop fuel i
    else return ⟨⟩

/-- The third loop, with `n` passes left, from the component `i` and the index
`p` of the path on. -/
def writeBack : ℕ → ℕ → ℕ → Norm ℕ
  | _, p, 0 => return p
  | i, p, n + 1 => do
    let len := (← stringAt i).length
    let name ← stringAt i
    storePath p (name.take len)
    let p := p + len
    let w ← get
    if i < w.depth - 1 then do
      storePath p [splitChar]
      freeAt i
      writeBack (i + 1) (p + 1) n
    else do
      freeAt i
      writeBack (i + 1) p n

/-- `_helper_path_normpath`: it returns the length, and leaves the result in the
path. -/
def helperPathNormpath : Norm ℕ := do
  let w ← get
  pushComponents w.s
  let w ← get
  resolveLoop (w.depth + 1) 0
  let w ← get
  let p ← writeBack 0 0 w.depth
  if p < w.s.length then storePath p [0]
  return p

section Loops

variable {w : State} {v : View} {bytes : Bytes} {names kept todo : List (ℕ × Bytes)}
  {c : ℕ × Bytes} {maxDepth : ℕ} {s : Bytes}

/-! ### The first loop -/

/-- **The components are pushed.**  Behind the loop there is room for the last
one, as the array is enlarged before it is full. -/
theorem scanLoop_ends (h : Holds w (stackView maxDepth names s)) (hroom : names.length < maxDepth)
    (rest prev : Bytes) : Ends (scanLoop rest prev) w fun last t =>
      ∃ maxDepth' more, (names ++ more).length < maxDepth' ∧
        Holds t (stackView maxDepth' (names ++ more) s) ∧
        splitComponents rest prev = (more.map fun c => cstr c.2) ++ splitComponents [] last := by
  induction rest generalizing w maxDepth names prev with
  | nil =>
    refine ends_pure ⟨maxDepth, [], ?_, ?_, rfl⟩
    · rwa [List.append_nil]
    · rwa [List.append_nil]
  | cons p rest ih =>
    rw [scanLoop]
    refine (growStack_ends h hroom (List.length_map _).le).seq fun _ t hgrown => ?_
    obtain ⟨maxDepth', hroom', h'⟩ := hgrown
    have hroom' : names.length + 1 < maxDepth' := hroom'
    by_cases hcut : (isSep p && decide (prev ≠ [])) = true
    · rw [if_pos hcut]
      refine (pushComponent_ends h' (by omega) prev).seq ?_
      rintro _ t ⟨q, hpushed⟩
      refine (ih hpushed (by simpa using hroom') []).mono ?_
      rintro last u ⟨maxDepth₂, more, hlt, hu, hsplit⟩
      refine ⟨maxDepth₂, (q, prev) :: more, ?_, ?_, ?_⟩
      · rwa [List.append_cons]
      · rwa [List.append_cons]
      · have hcons : splitComponents (p :: rest) prev = cstr prev :: splitComponents rest [] :=
          if_pos hcut
        rw [hcons, hsplit]
        rfl
    · rw [if_neg hcut]
      refine (ih h' (by omega) (prev ++ [p])).mono ?_
      rintro last u ⟨maxDepth₂, more, hlt, hu, hsplit⟩
      refine ⟨maxDepth₂, more, hlt, hu, ?_⟩
      have hcons : splitComponents (p :: rest) prev = splitComponents rest (prev ++ [p]) :=
        if_neg hcut
      rw [hcons, hsplit]

/-! ### The second loop -/

/-- The next component is taken off: its block is freed, and those behind it
move up by one, so the same index is looked at again. -/
theorem removeOne_ends (h : Holds w (stackView maxDepth (kept ++ c :: todo) s)) :
    Ends (freeAt kept.length >>= fun _ => dropEntries 1 kept.length >>= fun _ =>
      (pure kept.length : Norm ℕ)) w fun i t =>
        i = kept.length ∧ Holds t (stackView maxDepth (kept ++ todo) s) := by
  refine (freeEntry_ends h (by simp)).seq fun _ t h => ?_
  rw [List.append_cons kept c todo] at h
  exact (dropHole_ends h (List.cons_ne_nil _ _) rfl).seq fun _ t h => ends_pure ⟨rfl, h⟩

/-- The next component and the one in front of it are taken off: both blocks are
freed, and those behind move up by two. -/
theorem removeTwo_ends {d : ℕ × Bytes}
    (h : Holds w (stackView maxDepth (kept ++ d :: c :: todo) s)) :
    Ends (freeAt kept.length >>= fun _ => freeAt (kept.length + 1) >>= fun _ =>
      dropEntries 2 (kept.length + 1) >>= fun _ => (pure kept.length : Norm ℕ)) w fun i t =>
        i = kept.length ∧ Holds t (stackView maxDepth (kept ++ todo) s) := by
  refine (freeEntry_ends h (by simp)).seq fun _ t h => ?_
  refine (freeEntry_ends h (by simp)).seq fun _ t h => ?_
  rw [List.append_cons kept d (c :: todo), List.append_cons (kept ++ [d]) c todo,
    List.append_assoc kept] at h
  exact (dropHole_ends h (List.cons_ne_nil _ _) rfl).seq fun _ t h => ends_pure ⟨rfl, h⟩

/-- **A pass of the second loop** does what the next component says.  What is in
front of the index is already resolved, and stands for the stack of
`resolveStep`. -/
theorem resolvePass_ends (h : Holds w (stackView maxDepth (kept ++ c :: todo) s)) :
    Ends (resolvePass kept.length) w fun i t => ∃ kept', i = kept'.length ∧
      Holds t (stackView maxDepth (kept' ++ todo) s) ∧
      kept'.map text = resolveStep (kept.map text) (text c) := by
  have hnext : (kept ++ c :: todo)[kept.length]? = some c := by simp
  have hmem : c ∈ kept ++ c :: todo := List.mem_append_right _ (List.mem_cons_self ..)
  refine (text_ends h hnext hmem).seq ?_
  rintro _ t ⟨rfl, h⟩
  by_cases hdots : text c = ascii ".."
  · rw [if_pos hdots]
    have hstep : resolveStep (kept.map text) (text c) = (kept.map text).dropLast := if_pos hdots
    rw [hstep]
    rcases List.eq_nil_or_concat' kept with rfl | ⟨kept, d, rfl⟩
    · refine (removeOne_ends h).mono ?_
      rintro _ t ⟨rfl, h⟩
      exact ⟨[], rfl, h, rfl⟩
    · rw [← List.append_cons] at h
      have hlength : (kept ++ [d]).length = kept.length + 1 := by simp
      rw [hlength, if_pos (Nat.succ_pos _)]
      refine (removeTwo_ends h).mono ?_
      rintro _ t ⟨rfl, h⟩
      refine ⟨kept, rfl, h, ?_⟩
      rw [List.map_append, List.map_singleton, List.dropLast_concat]
  · rw [if_neg hdots]
    refine (text_ends h hnext hmem).seq ?_
    rintro _ t ⟨rfl, h⟩
    by_cases hdot : text c = ascii "."
    · rw [if_pos hdot]
      refine (removeOne_ends h).mono ?_
      rintro _ t ⟨rfl, h⟩
      refine ⟨kept, rfl, h, ?_⟩
      rw [resolveStep, if_neg hdots, if_pos hdot]
    · rw [if_neg hdot]
      refine ends_pure ⟨kept ++ [c], by simp, ?_, ?_⟩
      · rwa [← List.append_cons]
      · rw [resolveStep, if_neg hdots, if_neg hdot, List.map_append]
        rfl

/-- **The second loop ends**, after one pass for each component: every pass
either goes to the next index or shortens the array by what it has looked at. -/
theorem resolveLoop_ends (h : Holds w (stackView maxDepth (kept ++ todo) s)) {fuel : ℕ}
    (hfuel : todo.length < fuel) :
    Ends (resolveLoop fuel kept.length) w fun _ t => ∃ names,
      Holds t (stackView maxDepth names s) ∧
      names.map text = (todo.map text).foldl resolveStep (kept.map text) := by
  induction todo generalizing w kept fuel with
  | nil =>
    obtain ⟨fuel, rfl⟩ : ∃ n, fuel = n + 1 := Nat.exists_eq_succ_of_ne_zero hfuel.ne'
    rw [List.append_nil] at h
    refine Ends.bind (ends_get ?_)
    have hend : ¬kept.length < w.depth := h.depth ▸ lt_irrefl _
    rw [if_neg hend]
    exact ends_pure ⟨kept, h, rfl⟩
  | cons c todo ih =>
    obtain ⟨fuel, rfl⟩ : ∃ n, fuel = n + 1 :=
      Nat.exists_eq_succ_of_ne_zero (Nat.ne_zero_of_lt hfuel)
    refine Ends.bind (ends_get ?_)
    have hmore : kept.length < w.depth := by
      rw [h.depth]
      simp [stackView, liveView]
    rw [if_pos hmore]
    refine (resolvePass_ends h).seq ?_
    rintro _ t ⟨kept', rfl, h, hstep⟩
    refine (ih h (by simpa using hfuel)).mono ?_
    rintro _ u ⟨names, hu, hnames⟩
    refine ⟨names, hu, ?_⟩
    rw [hnames, hstep, List.map_cons, List.foldl_cons]

/-! ### The third loop -/

/-- More is written behind what was written to the start of the path, which is
never further than the path itself goes. -/
theorem storeNext_ends {out : Bytes} (h : Holds w v) (hs : v.s = copyTo s 0 out)
    (hroom : out.length + bytes.length ≤ s.length) :
    Ends (storePath out.length bytes) w fun _ t =>
      Holds t { v with s := copyTo s 0 (out ++ bytes) } := by
  have hout : 0 + out.length ≤ s.length := by omega
  refine (storePath_ends h (by rwa [hs, length_copyTo hout])).mono fun _ t h => ?_
  have hcopy := copyTo_copyTo (s := bytes) out hout
  rw [Nat.zero_add] at hcopy
  rw [← hcopy, ← hs]
  exact h

/-- A name is a start of the path that it is the first component of: the
separator comes behind it. -/
theorem prefix_path (k : Bytes) (ks : List Bytes) : k <+: path (k :: ks) := by
  by_cases hks : ks = []
  · rw [hks, path_singleton]
  · rw [path_cons k hks, List.append_assoc]
    exact List.prefix_append _ _

/-- **The third loop writes the components**, with separators between them, and
frees each when it is written.  What is written so far and what is on the stack
together have room in the path. -/
theorem writeBack_ends {finished rest : List (ℕ × Bytes)} {out : Bytes}
    (h : Holds w (liveView maxDepth (finished ++ rest) rest (copyTo s 0 out)))
    (hroom : (out ++ path (rest.map text)).length ≤ s.length) :
    Ends (writeBack finished.length out.length rest.length) w fun q t =>
      q = (out ++ path (rest.map text)).length ∧
        Holds t (liveView maxDepth (finished ++ rest) []
          (copyTo s 0 (out ++ path (rest.map text)))) := by
  induction rest generalizing w finished out with
  | nil =>
    have hnil : out ++ path (([] : List (ℕ × Bytes)).map text) = out := List.append_nil out
    rw [hnil]
    exact ends_pure ⟨rfl, h⟩
  | cons c rest ih =>
    have hnext : (finished ++ c :: rest)[finished.length]? = some c := by simp
    rw [List.map_cons] at hroom ⊢
    -- what is left of the pass, once the component and its separator are written
    have hfinish : ∀ {u out'},
        out' ++ path (rest.map text) = out ++ path (text c :: rest.map text) →
        Holds u (liveView maxDepth (finished ++ c :: rest) (c :: rest) (copyTo s 0 out')) →
        Ends (freeAt finished.length >>= fun _ =>
          writeBack (finished.length + 1) out'.length rest.length) u fun q t =>
            q = (out ++ path (text c :: rest.map text)).length ∧
              Holds t (liveView maxDepth (finished ++ c :: rest) []
                (copyTo s 0 (out ++ path (text c :: rest.map text)))) := by
      intro u out' hout hu
      replace hu : Holds u (liveView maxDepth (finished ++ c :: rest) ([] ++ c :: rest)
          (copyTo s 0 out')) := hu
      refine (freeEntry_ends hu hnext).seq fun _ t ht => ?_
      have hlength : finished.length + 1 = (finished ++ [c]).length := by simp
      rw [List.append_cons finished] at ht ⊢
      rw [hlength, ← hout]
      exact ih ht (by rwa [hout])
    rw [List.length_cons, writeBack]
    refine (text_ends h hnext (List.mem_cons_self ..)).seq ?_
    rintro _ t ⟨rfl, h⟩
    refine (text_ends h hnext (List.mem_cons_self ..)).seq ?_
    rintro _ t ⟨rfl, h⟩
    have hfits : out.length + (text c).length ≤ s.length := by
      have hle := (prefix_path (text c) (rest.map text)).length_le
      rw [List.length_append] at hroom
      omega
    rw [List.take_length]
    refine (storeNext_ends h rfl hfits).seq fun _ t h => ?_
    refine Ends.bind (ends_get ?_)
    have hdepth : t.depth = (finished ++ c :: rest).length := h.depth
    rw [List.length_append, List.length_cons] at hdepth
    rw [← List.length_append]
    by_cases hlast : rest = []
    · have hnot : ¬finished.length < t.depth - 1 := by
        rw [hdepth, hlast, List.length_nil]
        omega
      rw [if_neg hnot]
      refine hfinish ?_ h
      rw [hlast, List.map_nil, path_singleton]
      exact List.append_nil _
    · have hpos := List.length_pos_iff.2 hlast
      have hmore : finished.length < t.depth - 1 := by omega
      have hnames : rest.map text ≠ [] := mt List.map_eq_nil_iff.1 hlast
      have hcons := path_cons (text c) hnames
      have hsep : (out ++ text c).length + [splitChar].length ≤ s.length := by
        rw [hcons] at hroom
        simp only [List.length_append] at hroom ⊢
        omega
      rw [if_pos hmore]
      refine (storeNext_ends h rfl hsep).seq fun _ t h => ?_
      have hlength : (out ++ text c).length + 1 = (out ++ text c ++ [splitChar]).length := by
        simp only [List.length_append, List.length_singleton]
      rw [hlength]
      refine hfinish ?_ h
      rw [hcons]
      simp only [List.append_assoc]

/-! ### The whole -/

/-- The room that components take, each with a separator. -/
def weight (ks : List Bytes) : ℕ := (ks.map fun k => k.length + 1).sum

/-- No component needs room. -/
theorem weight_nil : weight [] = 0 := rfl

/-- The room that components need, each with one byte for a separator, is a sum. -/
theorem weight_append (ks ls : List Bytes) : weight (ks ++ ls) = weight ks + weight ls := by
  rw [weight, List.map_append, List.sum_append]
  rfl

/-- A component needs its bytes and one for the separator. -/
theorem weight_cons (k : Bytes) (ks : List Bytes) :
    weight (k :: ks) = k.length + 1 + weight ks := by
  rw [weight, List.map_cons, List.sum_cons]
  rfl

/-- The last component has no separator behind it, so a path has one byte less
than its components weigh. -/
theorem length_path (ks : List Bytes) : (path ks).length = weight ks - 1 := by
  induction ks with
  | nil => rfl
  | cons k ks ih =>
    by_cases hks : ks = []
    · subst hks
      rw [path_singleton, weight_cons]
      rfl
    · have hpos : 0 < weight ks := by
        obtain ⟨l, ls, rfl⟩ := List.exists_cons_of_ne_nil hks
        rw [weight_cons]
        omega
      rw [path_cons k hks, List.length_append, List.length_append, List.length_singleton, ih,
        weight_cons]
      omega

/-- No move of the stack makes it heavier than a push: `..` and `.` only take
off. -/
theorem weight_resolveStep (ks : List Bytes) (t : Bytes) :
    weight (resolveStep ks t) ≤ weight (ks ++ [t]) := by
  have hlast : weight ks.dropLast ≤ weight ks := by
    rcases List.eq_nil_or_concat' ks with rfl | ⟨init, k, rfl⟩
    · exact le_rfl
    · rw [List.dropLast_concat, weight_append]
      exact Nat.le_add_right _ _
  unfold resolveStep
  split_ifs
  · rw [weight_append]
    omega
  · rw [weight_append]
    exact Nat.le_add_right _ _
  · exact le_rfl

/-- What is left takes no more room than what there was, move by move. -/
theorem weight_foldl_resolveStep (ts ks : List Bytes) :
    weight (ts.foldl resolveStep ks) ≤ weight ks + weight ts := by
  induction ts generalizing ks with
  | nil => exact le_rfl
  | cons t ts ih =>
    have hstep := weight_resolveStep ks t
    have hrest := ih (resolveStep ks t)
    rw [weight_append, weight_cons t [], weight_nil] at hstep
    rw [List.foldl_cons, weight_cons]
    omega

/-- The components of a path have room in it: they were cut from it at
separators, and the last one has none behind it. -/
theorem weight_splitComponents (rest prev : Bytes) :
    weight (splitComponents rest prev) ≤ prev.length + rest.length + 1 := by
  have hcstr : (cstr prev).length ≤ prev.length := (List.takeWhile_prefix _).length_le
  induction rest generalizing prev with
  | nil =>
    unfold splitComponents
    split_ifs
    · rw [weight_cons, weight_nil, List.length_nil]
      omega
    · exact Nat.zero_le _
  | cons p rest ih =>
    unfold splitComponents
    rw [List.length_cons]
    split_ifs with hcut
    · have hrest := ih [] le_rfl
      rw [List.length_nil] at hrest
      rw [weight_cons]
      omega
    · have hrest := ih (prev ++ [p]) (List.takeWhile_prefix _).length_le
      rw [List.length_append, List.length_singleton] at hrest
      omega

/-- **The result is not longer than the path**, so it can be written over it: it
is made of components of the path, each with the separator it had. -/
theorem length_helperPathNormpath_le (s : Bytes) :
    (Pylib.helperPathNormpath s).length ≤ s.length := by
  have hresolved := weight_foldl_resolveStep (splitComponents s []) []
  have hsplit := weight_splitComponents s []
  rw [weight_nil] at hresolved
  rw [List.length_nil] at hsplit
  change (path ((splitComponents s []).foldl resolveStep [])).length ≤ s.length
  rw [length_path]
  omega

/-- The call starts with an empty stack of 128 places, and no block is live. -/
theorem holds_start (s : Bytes) : Holds (start s) (stackView 128 [] s) :=
  ⟨rfl, Block.length_fresh, Block.starts_nil _, Lib.Heap.live_nil, rfl, rfl,
    fun _ h => absurd h List.not_mem_nil⟩

/-- **The components of a path are on the stack behind the first loop.**  The
last one has no separator behind it and is pushed when the loop is done. -/
theorem pushComponents_ends (s : Bytes) : Ends (pushComponents s) (start s) fun _ t =>
    ∃ maxDepth names, Holds t (stackView maxDepth names s) ∧
      names.map text = splitComponents s [] := by
  refine (scanLoop_ends (holds_start s) (by decide) s []).seq ?_
  rintro last t ⟨maxDepth, names, hroom, h, hsplit⟩
  rw [List.nil_append] at hroom h
  by_cases hlast : last = []
  · rw [if_neg (not_not.2 hlast)]
    refine ends_pure ⟨maxDepth, names, h, ?_⟩
    rw [hsplit, hlast]
    exact (List.append_nil _).symm
  · rw [if_pos hlast]
    refine (pushComponent_ends h hroom last).mono ?_
    rintro _ u ⟨p, hu⟩
    refine ⟨maxDepth, _, hu, ?_⟩
    rw [hsplit, List.map_append, splitComponents, if_pos hlast]
    rfl

/-- What the function leaves behind. -/
structure Normalized (s : Bytes) (n : ℕ) (t : State) : Prop where
  /-- The result is at the start of the path. -/
  result : t.s.take n = Pylib.helperPathNormpath s
  /-- Nothing behind the path was written. -/
  length : t.s.length = s.length
  le : n ≤ s.length
  /-- Each access to the array was below `max_depth`, and where it may be for
  `depth`. -/
  inBounds : ∀ a ∈ t.log, a.InBounds
  /-- No component is left; a second `duk_free_raw` would have been a fault. -/
  freed : ∀ b ∈ t.heap, b = none

/-- The result and what is behind it are in the memory of the path, whose length
the call sets: the bytes behind the result stay what they were or are the last
NUL. -/
theorem Holds.normalized {more : Bytes} (h : Holds w v) (hblocks : v.blocks = [])
    (hs : v.s = copyTo s 0 (Pylib.helperPathNormpath s ++ more))
    (hroom : (Pylib.helperPathNormpath s ++ more).length ≤ s.length) :
    Normalized s (Pylib.helperPathNormpath s).length w where
  result := by
    rw [h.s, hs, copyTo, List.take_zero, List.nil_append, List.append_assoc, List.take_left]
  length := by
    rw [h.s, hs]
    exact length_copyTo (by omega)
  le := length_helperPathNormpath_le s
  inBounds := h.log
  freed := (hblocks ▸ h.live).all_freed

/-- **`_helper_path_normpath` ends without a fault**, and leaves what
`Pylib.helperPathNormpath` gives. -/
theorem helperPathNormpath_ends (s : Bytes) :
    Ends helperPathNormpath (start s) (Normalized s) := by
  have hle := length_helperPathNormpath_le s
  refine Ends.bind (ends_get ?_)
  refine (pushComponents_ends s).seq ?_
  rintro _ t ⟨maxDepth, names, h, hnames⟩
  refine Ends.bind (ends_get ?_)
  have hfuel : names.length < t.depth + 1 := h.depth ▸ Nat.lt_succ_self _
  replace h : Holds t (stackView maxDepth ([] ++ names) s) := h
  refine (resolveLoop_ends h hfuel).seq ?_
  rintro _ t ⟨kept, h, hkept⟩
  refine Ends.bind (ends_get ?_)
  -- the names that are left, joined, are the result
  have hresult : [] ++ path (kept.map text) = Pylib.helperPathNormpath s := by
    rw [hkept, hnames]
    rfl
  have hdepth : t.depth = kept.length := h.depth
  rw [hdepth]
  replace h : Holds t (liveView maxDepth ([] ++ kept) kept (copyTo s 0 [])) := by
    have hsame : copyTo s 0 [] = s := by simp [copyTo]
    rw [hsame]
    exact h
  refine (writeBack_ends h (hresult ▸ hle)).seq ?_
  rintro _ u ⟨rfl, hu⟩
  rw [hresult] at hu ⊢
  have hlength : t.s.length = s.length := by
    rw [h.s]
    exact length_copyTo (Nat.zero_le _)
  rw [hlength]
  by_cases hnul : (Pylib.helperPathNormpath s).length < s.length
  · rw [if_pos hnul]
    have hroom : (Pylib.helperPathNormpath s).length + [(0 : UInt8)].length ≤ s.length := hnul
    refine (storeNext_ends hu rfl hroom).seq fun _ u hu => ?_
    refine ends_pure (hu.normalized rfl rfl ?_)
    rwa [List.length_append]
  · rw [if_neg hnul]
    have hnothing : Pylib.helperPathNormpath s ++ [] = Pylib.helperPathNormpath s :=
      List.append_nil _
    rw [← hnothing] at hu hle
    exact Ends.bind (ends_pure (ends_pure (hu.normalized rfl rfl hle)))

/-- A push reads the array at `depth`: the new block is cleared and filled
through the slot it was stored in, before `depth` is raised. -/
theorem helperPathNormpath_readBack :
    ¬∀ a ∈ (exec helperPathNormpath (start (ascii "a"))).2.log,
      a.use ≠ .write → a.index < a.depth := by
  intro hbelow
  exact absurd (hbelow ⟨.readBack, 0, 0, 128⟩ (by decide +kernel) (by decide)) (lt_irrefl 0)

example : (exec helperPathNormpath (start (ascii "a/../b//c"))).2.s.take 4 = ascii "b//c" := by
  decide +kernel

end Loops

end NormpathStack
end Pylib
end Dukserver
