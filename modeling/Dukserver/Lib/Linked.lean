/-
# Linked lists in memory

A memory maps an address to the cell that is allocated there, and each cell says where
the next one is.  `Seg mem p l q` holds if the cells `l`, each with its address, are those
that are met from `p` on before `q`.  A segment that ends where nothing is allocated is
determined by its start, so it meets no cell twice (`Seg.nodup`); writes to other
addresses leave a segment as it is (`Seg.update`), and a write to the last cell moves its
end (`Seg.update_last`).  This is all that inserting and unlinking a cell needs.
-/

import Mathlib.Data.List.Nodup
import Mathlib.Logic.Function.Basic

namespace Dukserver
namespace Lib
namespace Linked

variable {α ν : Type*} (next : ν → α)

/-- The cells `l` are those from `p` up to `q`. -/
def Seg (mem : α → Option ν) : α → List (α × ν) → α → Prop
  | p, [], q => p = q
  | p, c :: l, q => p = c.1 ∧ mem c.1 = some c.2 ∧ Seg mem (next c.2) l q

variable {next} {mem mem' : α → Option ν} {l l₁ l₂ : List (α × ν)} {p q r : α}

/-- Without cells a segment ends where it starts. -/
@[simp] theorem seg_nil : Seg next mem p [] q ↔ p = q := Iff.rfl

/-- A segment is its first cell and a segment from the next one on. -/
@[simp] theorem seg_cons {c : α × ν} : Seg next mem p (c :: l) q ↔
    p = c.1 ∧ mem c.1 = some c.2 ∧ Seg next mem (next c.2) l q := Iff.rfl

/-- It can be divided anywhere, at the address where the second part starts.  To
change a node in the middle, the segment is divided before and behind it. -/
theorem seg_append :
    Seg next mem p (l₁ ++ l₂) q ↔ ∃ r, Seg next mem p l₁ r ∧ Seg next mem r l₂ q := by
  induction l₁ generalizing p with
  | nil => simp
  | cons c l₁ ih =>
    rw [List.cons_append, seg_cons, ih]
    constructor
    · rintro ⟨hp, hc, r, h₁, h₂⟩
      exact ⟨r, ⟨hp, hc, h₁⟩, h₂⟩
    · rintro ⟨r, ⟨hp, hc, h₁⟩, h₂⟩
      exact ⟨hp, hc, r, h₁, h₂⟩

/-- The cells of a segment are allocated. -/
theorem Seg.mem_eq (h : Seg next mem p l q) {c : α × ν} (hc : c ∈ l) : mem c.1 = some c.2 := by
  induction l generalizing p with
  | nil => exact absurd hc List.not_mem_nil
  | cons d l ih =>
    obtain ⟨-, hd, hl⟩ := h
    rcases List.mem_cons.1 hc with rfl | hc
    · exact hd
    · exact ih hl hc

/-- A segment depends on its own cells only. -/
theorem Seg.congr (h : Seg next mem p l q) (hmem : ∀ c ∈ l, mem' c.1 = mem c.1) :
    Seg next mem' p l q := by
  induction l generalizing p with
  | nil => exact h
  | cons c l ih =>
    obtain ⟨hp, hc, hl⟩ := h
    exact ⟨hp, (hmem c (List.mem_cons_self ..)).trans hc,
      ih hl fun d hd => hmem d (List.mem_cons_of_mem _ hd)⟩

/-- Two segments from one address that both run to the end are the same: each
cell says where the next one is, and an end is where there is no cell. -/
theorem Seg.unique (hq : mem q = none) (hr : mem r = none) (h₁ : Seg next mem p l₁ q)
    (h₂ : Seg next mem p l₂ r) : l₁ = l₂ := by
  induction l₁ generalizing p l₂ with
  | nil =>
    obtain rfl : p = q := h₁
    cases l₂ with
    | nil => rfl
    | cons d l₂ =>
      obtain ⟨rfl, hd, -⟩ := h₂
      rw [hd] at hq
      cases hq
  | cons c l₁ ih =>
    obtain ⟨rfl, hc, hl₁⟩ := h₁
    cases l₂ with
    | nil =>
      obtain rfl : c.1 = r := h₂
      rw [hc] at hr
      cases hr
    | cons d l₂ =>
      obtain ⟨hcd, hd, hl₂⟩ := h₂
      have hval : c.2 = d.2 := by
        rw [← hcd, hc] at hd
        exact Option.some.inj hd
      rw [hval] at hl₁
      rw [Prod.ext hcd hval, ih hl₁ hl₂]

/-- **A segment that runs to the end meets no cell twice**: from the second time
on it would have to go round again. -/
theorem Seg.nodup (hq : mem q = none) (h : Seg next mem p l q) : (l.map Prod.fst).Nodup := by
  induction l generalizing p with
  | nil => exact List.nodup_nil
  | cons c l ih =>
    obtain ⟨hp, hc, hl⟩ := h
    rw [List.map_cons, List.nodup_cons]
    refine ⟨fun hmem => ?_, ih hl⟩
    -- the part from the second visit on would be the whole segment
    obtain ⟨d, hd, hdc⟩ := List.mem_map.1 hmem
    obtain ⟨l₁, l₂, rfl⟩ := List.append_of_mem hd
    obtain ⟨r, -, hr, -, htail⟩ := seg_append.1 hl
    have hval : d.2 = c.2 := by
      have hd' := hl.mem_eq hd
      rw [hdc, hc] at hd'
      exact (Option.some.inj hd').symm
    have hsame := Seg.unique hq hq (show Seg next mem c.1 (c :: (l₁ ++ d :: l₂)) q from
      ⟨rfl, hc, hl⟩) (show Seg next mem c.1 (c :: l₂) q from ⟨rfl, hc, hval ▸ htail⟩)
    have hlen := congrArg List.length hsame
    rw [List.length_cons, List.length_cons, List.length_append, List.length_cons] at hlen
    omega

section Updates

variable [DecidableEq α] {a : α} {n n' : ν} {o : Option ν}

/-- Writes to other addresses do not matter. -/
theorem Seg.update (h : Seg next mem p l q) (ha : a ∉ l.map Prod.fst) (o : Option ν) :
    Seg next (Function.update mem a o) p l q :=
  h.congr fun c hc => Function.update_of_ne (fun hca => ha (List.mem_map.2 ⟨c, hc, hca⟩)) ..

/-- A write to the last cell moves the end. -/
theorem Seg.update_last (h : Seg next mem p (l ++ [(a, n)]) q) (ha : a ∉ l.map Prod.fst) :
    Seg next (Function.update mem a (some n')) p (l ++ [(a, n')]) (next n') := by
  obtain ⟨r, hl, rfl, -, -⟩ := seg_append.1 h
  exact seg_append.2 ⟨_, hl.update ha _, rfl, Function.update_self .., rfl⟩

end Updates

end Linked

end Lib
end Dukserver
