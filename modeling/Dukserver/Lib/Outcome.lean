/-
# Calls that succeed or end in a fault

`Except` as the result of a call: what a sequence of calls does once the first of them
has succeeded, and the rule that carries a property through a list of calls.
-/

import Mathlib.Data.List.Basic
import Mathlib.Data.List.Induction

namespace Dukserver
namespace Lib

universe u v

variable {ε : Type u} {α β : Type v}

/-- Behind a success the rest is made. -/
@[simp] theorem ok_bind (a : α) (f : α → Except ε β) : (Except.ok a >>= f) = f a := rfl

/-- Two calls succeed if both do. -/
theorem bind_eq_ok {x : Except ε α} {f : α → Except ε β} {y : β} :
    (x >>= f) = .ok y ↔ ∃ a, x = .ok a ∧ f a = .ok y := by
  cases x with
  | error e => exact iff_of_false (fun h => by cases h) fun ⟨a, ha, _⟩ => by cases ha
  | ok a => exact ⟨fun h => ⟨a, rfl, h⟩, fun ⟨a', ha, h⟩ => by rwa [Except.ok.inj ha]⟩

/-- A call for each element succeeds if each does. -/
theorem mapM_ok {f : α → Except ε β} {g : α → β} {as : List α} (h : ∀ a ∈ as, f a = .ok (g a)) :
    as.mapM f = .ok (as.map g) := by
  induction as with
  | nil => rfl
  | cons a as ih =>
    rw [List.mapM_cons, h a (List.mem_cons_self ..), ok_bind,
      ih fun b hb => h b (List.mem_cons_of_mem _ hb)]
    rfl

/-- A list of calls whose success does not depend on the state succeeds if each
of them does, and only so. -/
theorem foldlM_isOk {f : β → α → Except ε β} {S : α → Prop}
    (h : ∀ b a, (∃ c, f b a = .ok c) ↔ S a) (as : List α) (b : β) :
    (∃ c, as.foldlM f b = .ok c) ↔ ∀ a ∈ as, S a := by
  induction as generalizing b with
  | nil => exact iff_of_true ⟨b, rfl⟩ fun a ha => absurd ha List.not_mem_nil
  | cons a as ih =>
    rw [List.forall_mem_cons, ← h b]
    constructor
    · rintro ⟨c, hc⟩
      rw [List.foldlM_cons, bind_eq_ok] at hc
      obtain ⟨c₁, h₁, hc⟩ := hc
      exact ⟨⟨c₁, h₁⟩, (ih c₁).1 ⟨c, hc⟩⟩
    · rintro ⟨⟨c₁, h₁⟩, hall⟩
      rw [List.foldlM_cons, h₁, ok_bind]
      exact (ih c₁).2 hall

/-- **A list of calls succeeds if each does from what the ones before it
leave.**  `P` is about the calls so far and the state reached. -/
theorem foldlM_ok {f : β → α → Except ε β} {b : β} {P : List α → β → Prop} (hnil : P [] b)
    (hstep : ∀ as c a, P as c → ∃ c', f c a = .ok c' ∧ P (as ++ [a]) c') (as : List α) :
    ∃ c, as.foldlM f b = .ok c ∧ P as c := by
  induction as using List.reverseRecOn with
  | nil => exact ⟨b, rfl, hnil⟩
  | append_singleton as a ih =>
    obtain ⟨c, hc, hP⟩ := ih
    obtain ⟨c', hc', hP'⟩ := hstep as c a hP
    refine ⟨c', ?_, hP'⟩
    rw [List.foldlM_append, hc, ok_bind, List.foldlM_cons, hc']
    rfl

/-- Two calls end alike: with the same fault, or with results that are related. -/
inductive SameOutcome (R : α → β → Prop) : Except ε α → Except ε β → Prop
  | error (e : ε) : SameOutcome R (.error e) (.error e)
  | ok {a : α} {b : β} (h : R a b) : SameOutcome R (.ok a) (.ok b)

end Lib
end Dukserver
