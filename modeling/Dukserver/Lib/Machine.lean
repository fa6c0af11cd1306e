/-
# Labelled machines and their runs

A machine is a state type, a type of labels and a partial step: a label is
either disabled in a state or leads to one next state.  All nondeterminism of
the modelled system (who is scheduled, what the environment answers) is in the
choice of the labels, so a run is determined by its list of labels and a trace
property is a property of that list.

`Machine.run_induction` is the rule every run property rests on: a predicate of
the labels executed so far and of the state reached, true at the start and kept
by each enabled step, is true of every run.  `Machine.Along` says that each step of a
run meets a condition in the state it is made in, and `Machine.along_of_invariant`
derives one such condition from another by an invariant; `Machine.along_iff_pairwise` is about
a resource, and what uses it after it was released.  `Machine.exists_run_map` carries
runs along a simulation, and `Machine.run_iff_exec` decides whether a given list
of labels is a run.
-/

import Mathlib.Data.List.Basic
import Mathlib.Data.List.Induction

namespace Dukserver
namespace Lib

universe u v

/-- A machine: which labels are enabled in a state, and where they lead. -/
structure Machine (σ : Type u) (ℓ : Type v) where
  /-- The label can be executed in the state. -/
  Enabled : σ → ℓ → Prop
  /-- The state after an enabled label. -/
  next : σ → ℓ → σ

namespace Machine

variable {σ : Type u} {ℓ : Type v} (M : Machine σ ℓ)

/-- `M.Run s ls t`: executing the labels `ls` in order leads from `s` to `t`. -/
def Run (s : σ) : List ℓ → σ → Prop
  | [], t => t = s
  | l :: ls, t => M.Enabled s l ∧ Run (M.next s l) ls t

/-- The state after executing all labels, enabled or not. -/
def exec (s : σ) (ls : List ℓ) : σ := ls.foldl M.next s

/-- Every label is enabled in the state the labels before it lead to. -/
def AllEnabled (s : σ) : List ℓ → Prop
  | [] => True
  | l :: ls => M.Enabled s l ∧ AllEnabled (M.next s l) ls

instance decidableAllEnabled [∀ s l, Decidable (M.Enabled s l)] :
    ∀ s ls, Decidable (M.AllEnabled s ls)
  | _, [] => inferInstanceAs (Decidable True)
  | s, l :: ls =>
    have := decidableAllEnabled (M.next s l) ls
    inferInstanceAs (Decidable (M.Enabled s l ∧ M.AllEnabled (M.next s l) ls))

/-- Each label meets `P` in the state the labels before it lead to. -/
def Along (P : σ → ℓ → Prop) (s : σ) : List ℓ → Prop
  | [] => True
  | l :: ls => P s l ∧ Along P (M.next s l) ls

instance decidableAlong {P : σ → ℓ → Prop} [∀ s l, Decidable (P s l)] :
    ∀ s ls, Decidable (M.Along P s ls)
  | _, [] => inferInstanceAs (Decidable True)
  | s, l :: ls =>
    have := decidableAlong (P := P) (M.next s l) ls
    inferInstanceAs (Decidable (P s l ∧ M.Along P (M.next s l) ls))

variable {M} {s t : σ} {l : ℓ} {ls ms : List ℓ}

/-- A run of no labels stays where it is. -/
@[simp] theorem run_nil : M.Run s [] t ↔ t = s := Iff.rfl

/-- A run makes its first step and goes on. -/
@[simp] theorem run_cons :
    M.Run s (l :: ls) t ↔ M.Enabled s l ∧ M.Run (M.next s l) ls t := Iff.rfl

/-- A run of two lists of labels is a run of the first followed by a run of the
second. -/
theorem run_append : M.Run s (ls ++ ms) t ↔ ∃ u, M.Run s ls u ∧ M.Run u ms t := by
  induction ls generalizing s with
  | nil => simp
  | cons l ls ih =>
    simp only [List.cons_append, run_cons, ih]
    constructor
    · rintro ⟨hl, u, hu, ht⟩
      exact ⟨u, ⟨hl, hu⟩, ht⟩
    · rintro ⟨u, ⟨hl, hu⟩, ht⟩
      exact ⟨hl, u, hu, ht⟩

/-- The last step of a run. -/
theorem run_concat :
    M.Run s (ls ++ [l]) t ↔ ∃ u, M.Run s ls u ∧ M.Enabled u l ∧ t = M.next u l := by
  simp only [run_append, run_cons, run_nil]

/-- The state in which a label of a run was executed. -/
theorem exists_run_of_split (hrun : M.Run s (ls ++ l :: ms) t) :
    ∃ u, M.Run s ls u ∧ M.Enabled u l := by
  obtain ⟨u, hu, ht⟩ := run_append.1 hrun
  exact ⟨u, hu, (run_cons.1 ht).1⟩

/-- **A run property is proved step by step.**  `P` holds of the empty run and
every enabled step keeps it, where the step may use that the labels so far are a
run to the state it starts from. -/
theorem run_induction {P : List ℓ → σ → Prop} (hnil : P [] s)
    (hstep : ∀ ls u l, M.Run s ls u → P ls u → M.Enabled u l → P (ls ++ [l]) (M.next u l))
    (hrun : M.Run s ls t) : P ls t := by
  induction ls using List.reverseRecOn generalizing t with
  | nil => exact (run_nil.1 hrun) ▸ hnil
  | append_singleton ls l ih =>
    obtain ⟨u, hu, hl, rfl⟩ := run_concat.1 hrun
    exact hstep ls u l hu (ih hu) hl

/-- **An invariant carries a condition along a run.**  The steps with `C` keep
`I`, and `I` gives `Q`. -/
theorem along_of_invariant {C Q : σ → ℓ → Prop} {I : σ → Prop}
    (hstep : ∀ u l, I u → C u l → M.Enabled u l → I (M.next u l))
    (huse : ∀ u l, I u → M.Enabled u l → Q u l)
    (hI : I s) (hrun : M.Run s ls t) (hC : M.Along C s ls) : M.Along Q s ls ∧ I t := by
  induction ls generalizing s with
  | nil => exact ⟨trivial, (run_nil.1 hrun) ▸ hI⟩
  | cons l ls ih =>
    obtain ⟨hl, hrun⟩ := run_cons.1 hrun
    obtain ⟨hc, hC⟩ := hC
    obtain ⟨hQ, ht⟩ := ih (hstep s l hI hc hl) hrun hC
    exact ⟨⟨huse s l hI hl, hQ⟩, ht⟩

section Resource

variable {Q : σ → ℓ → Prop} {I J : σ → Prop} {R U : ℓ → Prop}

/-- Once the resource is released, the steps that use it are those that go
wrong. -/
theorem along_iff_of_released
    (hreleased : ∀ u l, J u → M.Enabled u l → J (M.next u l) ∧ (Q u l ↔ ¬U l))
    (hJ : J s) (hrun : M.Run s ls t) : M.Along Q s ls ↔ ∀ l ∈ ls, ¬U l := by
  induction ls generalizing s with
  | nil => exact iff_of_true trivial fun l hl => absurd hl List.not_mem_nil
  | cons l ls ih =>
    obtain ⟨hl, hrun⟩ := run_cons.1 hrun
    obtain ⟨hnext, hQ⟩ := hreleased s l hJ hl
    rw [List.forall_mem_cons, ← hQ, ← ih hnext hrun]
    rfl

/-- **No step of a run uses a resource wrongly exactly if** none uses it behind
a step that releases it.  `I` is true as long as it is not released, and `J`
from then on. -/
theorem along_iff_pairwise
    (hheld : ∀ u l, I u → M.Enabled u l → Q u l ∧ (R l → J (M.next u l)) ∧ (¬R l → I (M.next u l)))
    (hreleased : ∀ u l, J u → M.Enabled u l → J (M.next u l) ∧ (Q u l ↔ ¬U l))
    (hI : I s) (hrun : M.Run s ls t) :
    M.Along Q s ls ↔ ls.Pairwise fun m l => R m → ¬U l := by
  induction ls generalizing s with
  | nil => exact iff_of_true trivial List.Pairwise.nil
  | cons l ls ih =>
    obtain ⟨hl, hrun⟩ := run_cons.1 hrun
    obtain ⟨hQ, hrelease, hkeep⟩ := hheld s l hI hl
    have hrest : M.Along Q s (l :: ls) ↔ M.Along Q (M.next s l) ls :=
      and_iff_right hQ
    rw [hrest, List.pairwise_cons]
    by_cases hR : R l
    · rw [along_iff_of_released hreleased (hrelease hR) hrun]
      constructor
      · intro hall
        exact ⟨fun m hm _ => hall m hm,
          List.pairwise_of_forall_mem_list fun _ _ m hm _ => hall m hm⟩
      · exact fun hall m hm => hall.1 m hm hR
    · rw [ih (hkeep hR) hrun]
      exact (and_iff_right fun m _ hm => absurd hm hR).symm

end Resource

/-- **A simulation maps runs to runs.**  `R` relates the start states, and each
enabled label `l` with `ok l` is matched by the label `f l`. -/
theorem exists_run_map {σ' : Type*} {ℓ' : Type*} {N : Machine σ' ℓ'} {R : σ → σ' → Prop}
    {f : ℓ → ℓ'} {ok : ℓ → Prop}
    (hstep : ∀ u v l, R u v → ok l → M.Enabled u l →
      N.Enabled v (f l) ∧ R (M.next u l) (N.next v (f l)))
    {s' : σ'} (hR : R s s') (hok : ∀ l ∈ ls, ok l) (hrun : M.Run s ls t) :
    ∃ t', N.Run s' (ls.map f) t' ∧ R t t' := by
  induction ls generalizing s s' with
  | nil => exact ⟨s', rfl, (run_nil.1 hrun) ▸ hR⟩
  | cons l ls ih =>
    obtain ⟨hl, hrun⟩ := run_cons.1 hrun
    obtain ⟨hl', hR'⟩ := hstep s s' l hR (hok l (List.mem_cons_self ..)) hl
    obtain ⟨t', hrun', hRt⟩ := ih hR' (fun m hm => hok m (List.mem_cons_of_mem _ hm)) hrun
    exact ⟨t', ⟨hl', hrun'⟩, hRt⟩

/-- A list of labels can be run exactly when each is enabled in turn, and it
leads to the state computed by `exec`. -/
theorem run_iff_exec : M.Run s ls t ↔ M.AllEnabled s ls ∧ t = M.exec s ls := by
  induction ls generalizing s with
  | nil => simp [AllEnabled, exec]
  | cons l ls ih => simp [AllEnabled, exec, ih, and_assoc]

/-- The labels determine where a run leads. -/
theorem run_unique {t' : σ} (h : M.Run s ls t) (h' : M.Run s ls t') : t = t' :=
  (run_iff_exec.1 h).2.trans (run_iff_exec.1 h').2.symm

/-- The label behind the first part of a run is enabled there. -/
theorem enabled_of_split (hrun : M.Run s (ls ++ l :: ms) t) {u : σ} (hu : M.Run s ls u) :
    M.Enabled u l := by
  obtain ⟨u', hu', hl⟩ := exists_run_of_split hrun
  rwa [run_unique hu hu']

end Machine

end Lib
end Dukserver
