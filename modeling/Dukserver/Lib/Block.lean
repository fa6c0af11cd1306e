/-
# Blocks of memory, and heaps

A block is the cells that an allocator gives, each written or not.  `Block.write` is what writing
from an index on leaves of a block: what lies behind its end is not written.  `Block.resize` is a
block that is made longer or shorter and keeps its cells.

`Block.Starts` says what a block starts with.  `Block.Starts.write` and `Block.Starts.resize` are
the rules for a text that is put together in a block that grows.

A heap has its blocks at positions that are not used again, so that a block that was freed is known
as such.  `Heap.Live` says which blocks there are; each operation has one lemma.
-/

import Mathlib.Data.List.Basic
import Mathlib.Tactic.SplitIfs

namespace Dukserver
namespace Lib

variable {α : Type*}

/-- A block of memory. -/
abbrev Block (α : Type*) := List (Option α)

namespace Block

/-- A block of which nothing is written. -/
def fresh (n : ℕ) : Block α := List.replicate n none

/-- The block with `vs` from the index `i` on. -/
def write (b : Block α) (i : ℕ) (vs : List α) : Block α :=
  b.take i ++ (vs.map some).take (b.length - i) ++ b.drop (i + vs.length)

/-- The block with `n` cells. -/
def resize (b : Block α) (n : ℕ) : Block α := b.take n ++ fresh (n - b.length)

/-- The `n` cells from the index `i` on, if all of them are written. -/
def read (b : Block α) (i n : ℕ) : Option (List α) :=
  if i + n ≤ b.length then ((b.drop i).take n).mapM id else none

/-- What the block starts with. -/
def Starts (b : Block α) (vs : List α) : Prop := vs.map some <+: b

variable {b : Block α} {vs ws : List α} {i n : ℕ}

/-- A new block has the size that was asked for. -/
@[simp] theorem length_fresh : (fresh n : Block α).length = n := List.length_replicate

/-- Writing does not make a block longer: what lies behind its end is not
written. -/
@[simp] theorem length_write : (b.write i vs).length = b.length := by
  simp only [write, List.length_append, List.length_take, List.length_map, List.length_drop]
  omega

/-- A block that is resized has its new size. -/
@[simp] theorem length_resize : (b.resize n).length = n := by
  simp only [resize, List.length_append, List.length_take, length_fresh]
  omega

/-- What is written to the start, and what was behind it. -/
theorem write_zero (h : vs.length ≤ b.length) : b.write 0 vs = vs.map some ++ b.drop vs.length := by
  have hall : (vs.map some).take b.length = vs.map some :=
    List.take_of_length_le (by rwa [List.length_map])
  rw [write, List.take_zero, List.nil_append, Nat.sub_zero, hall, Nat.zero_add]

/-- Every block starts with nothing. -/
theorem starts_nil (b : Block α) : b.Starts [] := List.nil_prefix

/-- What a block starts with is not longer than it. -/
theorem Starts.le (h : b.Starts vs) : vs.length ≤ b.length := by
  have hle := h.length_le
  rwa [List.length_map] at hle

/-- Its first cells are written, and hold what it starts with. -/
theorem Starts.take (h : b.Starts vs) : b.take vs.length = vs.map some := by
  have hprefix := (List.prefix_iff_eq_take.1 h).symm
  rwa [List.length_map] at hprefix

/-- What a block starts with is there when it is made longer, or shorter down to
its end. -/
theorem Starts.resize (h : b.Starts vs) (hn : vs.length ≤ n) : (b.resize n).Starts vs := by
  refine List.IsPrefix.trans ?_ (List.prefix_append _ _)
  exact List.prefix_take_iff.2 ⟨h, by rwa [List.length_map]⟩

/-- **What is written behind the start is appended**, as long as there is room
for it.  This is the rule for a text that is put together piece by piece. -/
theorem Starts.write (h : b.Starts vs) (hroom : vs.length + ws.length ≤ b.length) :
    (b.write vs.length ws).Starts (vs ++ ws) := by
  have hall : (ws.map some).take (b.length - vs.length) = ws.map some := by
    refine List.take_of_length_le ?_
    rw [List.length_map]
    omega
  rw [Starts, Block.write, h.take, hall, ← List.map_append]
  exact List.prefix_append _ _

/-- Writing behind the start does not change it, even where it is beyond the
end. -/
theorem Starts.write_behind (h : b.Starts vs) (hi : vs.length ≤ i) (ws : List α) :
    (b.write i ws).Starts vs := by
  rw [Starts, Block.write, List.append_assoc]
  refine List.IsPrefix.trans ?_ (List.prefix_append _ _)
  exact List.prefix_take_iff.2 ⟨h, by rwa [List.length_map]⟩

/-- A cell of the start holds its value. -/
theorem Starts.getElem? (h : b.Starts vs) {a : α} (hi : vs[i]? = some a) :
    b[i]? = some (some a) := by
  obtain ⟨rest, rfl⟩ := h
  have hlt := (List.getElem?_eq_some_iff.1 hi).1
  rw [List.getElem?_append_left (by rwa [List.length_map]), List.getElem?_map, hi]
  rfl

/-- One cell is written, in the start or directly behind it.  In the second case
the start is one value longer. -/
theorem Starts.set (h : b.Starts vs) (hi : i ≤ vs.length) (hb : i < b.length) (a : α) :
    Starts (b.set i (some a)) (vs.take i ++ a :: vs.drop (i + 1)) := by
  obtain ⟨rest, rfl⟩ := h
  have htake : (vs.map some ++ rest).take i = (vs.take i).map some := by
    rw [List.take_append_of_le_length (by rwa [List.length_map]), List.map_take]
  have hdrop : (vs.map some ++ rest).drop (i + 1) =
      (vs.drop (i + 1)).map some ++ rest.drop (i + 1 - vs.length) := by
    rw [List.drop_append, List.length_map, List.map_drop]
  rw [List.set_eq_take_append_cons_drop, if_pos hb, htake, hdrop, Starts, List.map_append,
    List.map_cons]
  exact (List.prefix_append_right_inj _).2 ((List.cons_prefix_cons).2 ⟨rfl, List.prefix_append _ _⟩)

/-- **What a block starts with is read**: all its cells are written. -/
theorem Starts.read (h : b.Starts vs) : b.read 0 vs.length = some vs := by
  have hsome : ∀ l : List α, (l.map some).mapM id = some l := by
    intro l
    induction l with
    | nil => rfl
    | cons a l ih => simp [ih]
  rw [Block.read, if_pos (by simpa using h.le), List.drop_zero, h.take, hsome]

end Block

/-- A heap: each block that was ever allocated, `none` if it was freed. -/
abbrev Heap (α : Type*) := List (Option (Block α))

namespace Heap

/-- The blocks of the heap are these. -/
structure Live (h : Heap α) (blocks : List (ℕ × Block α)) : Prop where
  nodup : (blocks.map Prod.fst).Nodup
  mem_iff : ∀ p b, h[p]? = some (some b) ↔ (p, b) ∈ blocks

variable {h : Heap α} {blocks before after : List (ℕ × Block α)} {p : ℕ} {b c : Block α}

/-- An empty heap has no blocks. -/
theorem live_nil : Live ([] : Heap α) [] := ⟨List.nodup_nil, by simp⟩

/-- A live block is at its position. -/
theorem Live.getElem? (hl : h.Live blocks) (hp : (p, b) ∈ blocks) : h[p]? = some (some b) :=
  (hl.mem_iff p b).2 hp

/-- Positions of live blocks are positions of the heap, so a new block is at
none of them. -/
theorem Live.lt (hl : h.Live blocks) (hp : p ∈ blocks.map Prod.fst) : p < h.length := by
  obtain ⟨⟨q, b⟩, hb, rfl⟩ := List.mem_map.1 hp
  exact (List.getElem?_eq_some_iff.1 (hl.getElem? hb)).1

/-- Their order does not matter. -/
theorem Live.perm {blocks' : List (ℕ × Block α)} (hl : h.Live blocks)
    (hperm : blocks.Perm blocks') :
    h.Live blocks' :=
  ⟨(hperm.map Prod.fst).nodup_iff.1 hl.nodup, fun p b => (hl.mem_iff p b).trans hperm.mem_iff⟩

/-- **A new block** is behind all others: its position was never used. -/
theorem Live.alloc (hl : h.Live blocks) (b : Block α) :
    Live (h ++ [some b]) ((h.length, b) :: blocks) where
  nodup := List.nodup_cons.2 ⟨fun hmem => Nat.lt_irrefl _ (hl.lt hmem), hl.nodup⟩
  mem_iff p c := by
    rw [List.mem_cons, ← hl.mem_iff, Prod.mk.injEq]
    rcases Nat.lt_trichotomy p h.length with hlt | rfl | hgt
    · rw [List.getElem?_append_left hlt]
      exact (or_iff_right fun heq => Nat.ne_of_lt hlt heq.1).symm
    · simp [eq_comm]
    · have hnone : h[p]? = none := List.getElem?_eq_none (Nat.le_of_lt hgt)
      have hbehind : (h ++ [some b])[p]? = none := by
        refine List.getElem?_eq_none ?_
        rw [List.length_append, List.length_singleton]
        exact hgt
      rw [hnone, hbehind]
      simp [Nat.ne_of_gt hgt]

/-- Another block at the position, or none: what there was is gone, and the
other blocks are as before. -/
theorem Live.mem_set (hl : h.Live ((p, b) :: blocks)) (o : Option (Block α)) (q : ℕ)
    (c : Block α) : (h.set p o)[q]? = some (some c) ↔ q = p ∧ o = some c ∨ (q, c) ∈ blocks := by
  obtain ⟨hnot, -⟩ := List.nodup_cons.1 hl.nodup
  have hlt : p < h.length := hl.lt (List.mem_cons_self ..)
  by_cases hq : q = p
  · subst hq
    rw [List.getElem?_set_self hlt]
    have hother : (q, c) ∉ blocks := fun hmem => hnot (List.mem_map.2 ⟨_, hmem, rfl⟩)
    simp [hother]
  · rw [List.getElem?_set_ne (Ne.symm hq), hl.mem_iff, List.mem_cons, Prod.mk.injEq]
    simp [hq]

/-- **A block is freed**, and its position stays empty for ever. -/
theorem Live.free (hl : h.Live ((p, b) :: blocks)) : Live (h.set p none) blocks where
  nodup := (List.nodup_cons.1 hl.nodup).2
  mem_iff q c := by
    rw [hl.mem_set]
    simp

/-- **A block is written.**  It stays at its position. -/
theorem Live.store (hl : h.Live ((p, b) :: blocks)) (c : Block α) :
    Live (h.set p (some c)) ((p, c) :: blocks) where
  nodup := hl.nodup
  mem_iff q d := by
    rw [hl.mem_set, List.mem_cons, Prod.mk.injEq, Option.some.injEq, eq_comm (a := c)]

/-- Nothing is left: a heap without live blocks holds only positions that were
freed. -/
theorem Live.all_freed (hl : h.Live []) : ∀ o ∈ h, o = none := by
  intro o ho
  obtain ⟨p, hp⟩ := List.mem_iff_getElem?.1 ho
  cases o with
  | none => rfl
  | some b => exact absurd ((hl.mem_iff p b).1 hp) List.not_mem_nil

end Heap

end Lib
end Dukserver
