/-
# Programs as trees of calls, and their interleavings

A program that meets its surroundings only in calls is a tree: it is done with a value, or
it makes a call and goes on with the answer.  `Calls.run` makes such a tree a program of
any monad in which the calls mean something, and `interleaved` runs a family of trees over
one machine, one call of one of them at a time.

What a tree does is said by rules about shares of a resource: which calls it may make with
its share, and which share it has behind the answer.  `interleaved_run` is the rule of
parallel composition: if a call needs and changes only the share of the program that makes
it, then each program keeps to its rules in every interleaving, and the shares make up the
resource.
-/

import Dukserver.Lib.Machine
import Mathlib.Algebra.BigOperators.Group.Finset.Piecewise

namespace Dukserver
namespace Lib

open scoped BigOperators

/-- A program that makes calls `κ` and gets answers `ρ`. -/
inductive Calls (κ ρ α : Type)
  | done (a : α)
  | call (c : κ) (next : ρ → Calls κ ρ α)

namespace Calls

variable {κ ρ α β : Type}

/-- One program, and then the one that its value leads to. -/
def bind : Calls κ ρ α → (α → Calls κ ρ β) → Calls κ ρ β
  | .done a, f => f a
  | .call c next, f => .call c fun r => (next r).bind f

/-- The program in a monad that answers the calls. -/
def run {m : Type → Type} [Monad m] (answer : κ → m ρ) : Calls κ ρ α → m α
  | .done a => pure a
  | .call c next => do
    let r ← answer c
    (next r).run answer

/-- A tree that is hung below another runs behind it. -/
theorem run_bind {m : Type → Type} [Monad m] [LawfulMonad m] (answer : κ → m ρ)
    (x : Calls κ ρ α) (f : α → Calls κ ρ β) :
    (x.bind f).run answer = x.run answer >>= fun a => (f a).run answer := by
  induction x with
  | done a => simp only [bind, run, pure_bind]
  | call c next ih => simp only [bind, run, bind_assoc, ih]

end Calls

/-! ### Rules about shares -/

/-- Which calls may be made with a share, and what the share becomes. -/
structure Rules (κ ρ P : Type) where
  May : κ → P → Prop
  Becomes : κ → ρ → P → P → Prop

variable {ι κ ρ P σ : Type}

/-- The program keeps to the rules from a share on, and ends as `Post` says. -/
def Safe {α : Type} (R : Rules κ ρ P) (Post : α → P → Prop) : Calls κ ρ α → P → Prop
  | .done a, L => Post a L
  | .call c next, L => R.May c L ∧ ∀ r L', R.Becomes c r L L' → Safe R Post (next r) L'

/-! ### Interleavings -/

/-- Programs, and what they share. -/
structure Pool (ι κ ρ σ : Type) (α : ι → Type) where
  threads : ∀ i, Calls κ ρ (α i)
  shared : σ

variable {α : ι → Type}

/-- The program `i` makes its next call and is answered `r`. -/
def interleaved [DecidableEq ι] (M : Machine σ (κ × ρ)) : Machine (Pool ι κ ρ σ α) (ι × ρ) where
  Enabled s l :=
    match s.threads l.1 with
    | .done _ => False
    | .call c _ => M.Enabled s.shared (c, l.2)
  next s l :=
    match s.threads l.1 with
    | .done _ => s
    | .call c next => ⟨Function.update s.threads l.1 (next l.2), M.next s.shared (c, l.2)⟩

variable {M : Machine σ (κ × ρ)} {R : Rules κ ρ P}

/-- A step of an interleaving is a call of one of the programs.  The others stay
where they are, and see the change in the shared state only. -/
theorem interleaved_step [DecidableEq ι] {s : Pool ι κ ρ σ α} {l : ι × ρ}
    (h : (interleaved M).Enabled s l) :
    ∃ c next, s.threads l.1 = .call c next ∧ M.Enabled s.shared (c, l.2) ∧
      (interleaved M).next s l =
        ⟨Function.update s.threads l.1 (next l.2), M.next s.shared (c, l.2)⟩ := by
  simp only [interleaved] at h ⊢
  cases hthread : s.threads l.1 with
  | done a => rw [hthread] at h; exact h.elim
  | call c next =>
    rw [hthread] at h
    exact ⟨c, next, rfl, h, rfl⟩

/-- `Holds s L`: the machine has the resource `L` in the state `s`.  A call that
a share allows does to it what the rules say and leaves the rest, or stops the
machine for good. -/
structure Local [Add P] (M : Machine σ (κ × ρ)) (R : Rules κ ρ P) (Holds : σ → P → Prop)
    (Stopped : σ → Prop) : Prop where
  step : ∀ s c r L F, Holds s (L + F) → R.May c L → M.Enabled s (c, r) →
    Stopped (M.next s (c, r)) ∨ ∃ L', R.Becomes c r L L' ∧ Holds (M.next s (c, r)) (L' + F)
  stopped : ∀ s l, Stopped s → ¬M.Enabled s l

variable [AddCommMonoid P] [Fintype ι] [DecidableEq ι] {Holds : σ → P → Prop}
  {Stopped : σ → Prop} {Post : ∀ i, α i → P → Prop}

/-- Every program has a share with which it keeps to the rules, and the shares
make up the resource. -/
def Shared (R : Rules κ ρ P) (Holds : σ → P → Prop) (Post : ∀ i, α i → P → Prop)
    (s : Pool ι κ ρ σ α) : Prop :=
  ∃ shares : ι → P, Holds s.shared (∑ i, shares i) ∧
    ∀ i, Safe R (Post i) (s.threads i) (shares i)

/-- **One call is about one share**, so the other programs keep theirs: the rule
of the call changes the share of its program, and frames the rest. -/
theorem Shared.step (hM : Local M R Holds Stopped) {s : Pool ι κ ρ σ α} {l : ι × ρ}
    (h : Shared R Holds Post s) (hl : (interleaved M).Enabled s l) :
    Stopped ((interleaved M).next s l).shared ∨
      Shared R Holds Post ((interleaved M).next s l) := by
  obtain ⟨c, next, hthread, henabled, hnext⟩ := interleaved_step hl
  obtain ⟨i, r⟩ := l
  obtain ⟨shares, hholds, hsafe⟩ := h
  have hi := hsafe i
  rw [hthread] at hi
  rw [← Finset.add_sum_erase Finset.univ shares (Finset.mem_univ i)] at hholds
  rw [hnext]
  refine (hM.step _ c r _ _ hholds hi.1 henabled).imp id ?_
  rintro ⟨L', hbecomes, hholds'⟩
  refine ⟨Function.update shares i L', ?_, fun j => ?_⟩
  · rw [Finset.sum_update_of_mem (Finset.mem_univ i), Finset.sdiff_singleton_eq_erase]
    exact hholds'
  · -- the other programs have made no call and have the shares that they had
    by_cases hj : j = i
    · subst hj
      simp only [Function.update_self]
      exact hi.2 r L' hbecomes
    · simp only [Function.update_of_ne hj]
      exact hsafe j

/-- **Parallel composition**: in every interleaving of programs that keep to
local rules from shares of the resource on, each of them keeps to the rules, as
long as the machine has not stopped. -/
theorem interleaved_run (hM : Local M R Holds Stopped) {s t : Pool ι κ ρ σ α} {tr : List (ι × ρ)}
    (h : Shared R Holds Post s) (hrun : (interleaved M).Run s tr t) :
    Stopped t.shared ∨ Shared R Holds Post t := by
  refine Machine.run_induction (P := fun _ t => Stopped t.shared ∨ Shared R Holds Post t)
    (.inr h) (fun ls u l _ hu hl => ?_) hrun
  rcases hu with hstopped | hu
  · obtain ⟨c, next, -, henabled, -⟩ := interleaved_step hl
    exact absurd henabled (hM.stopped _ _ hstopped)
  · exact hu.step hM hl

end Lib
end Dukserver
