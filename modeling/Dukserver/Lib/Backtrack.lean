/-
# Pushes that are taken back

A list of moves pushes entries onto a stack and takes the last one back, which does
nothing on an empty stack.  Whether a push is still there in the end depends on what comes
behind it only: it is gone exactly if some stretch directly behind it takes back more than
it pushes (`Overdrawn`).  So the result can be read off the list from right to left
(`run_eq_survivors`).
-/

import Mathlib.Data.List.Basic

namespace Dukserver
namespace Lib
namespace Backtrack

universe u v

/-- What is done to the stack. -/
inductive Move (α : Type u)
  | push (a : α)
  | pop
  | skip
  deriving DecidableEq, Repr

variable {α : Type u} {β : Type v}

/-- The same move of another entry. -/
def Move.map (g : α → β) : Move α → Move β
  | .push a => .push (g a)
  | .pop => .pop
  | .skip => .skip

/-- A move on a stack, whose top is its last entry. -/
def step (stack : List α) : Move α → List α
  | .push a => stack ++ [a]
  | .pop => stack.dropLast
  | .skip => stack

/-- The stack in the end. -/
def run (l : List (Move α)) : List α := l.foldl step []

/-- How many entries the moves take from a stack that is deep enough. -/
def taken : List (Move α) → ℕ
  | [] => 0
  | .push _ :: l => taken l - 1
  | .pop :: l => taken l + 1
  | .skip :: l => taken l

/-- The pushes that are not taken back. -/
def survivors : List (Move α) → List α
  | [] => []
  | .push a :: l => if taken l = 0 then a :: survivors l else survivors l
  | .pop :: l => survivors l
  | .skip :: l => survivors l

/-- How many moves push, and how many take back. -/
def pushes : List (Move α) → ℕ
  | [] => 0
  | .push _ :: l => pushes l + 1
  | .pop :: l => pushes l
  | .skip :: l => pushes l

def pops : List (Move α) → ℕ
  | [] => 0
  | .push _ :: l => pops l
  | .pop :: l => pops l + 1
  | .skip :: l => pops l

/-- Some stretch at the start takes back more than it pushes. -/
def Overdrawn (l : List (Move α)) : Prop := ∃ p, p <+: l ∧ pushes p < pops p

section

variable {l : List (Move α)} {a : α}

/-- Only a push survives. -/
theorem survivors_cons {m : Move α} (h : m = .skip ∨ m = .pop) :
    survivors (m :: l) = survivors l := by
  rcases h with rfl | rfl <;> rw [survivors]

/-- **What moves do to a stack**: they take from its top and push the survivors.
By induction from the end of the list, where it is known what is taken. -/
theorem foldl_step (stack : List α) (l : List (Move α)) :
    l.foldl step stack = stack.take (stack.length - taken l) ++ survivors l := by
  induction l generalizing stack with
  | nil => simp [taken, survivors]
  | cons m l ih =>
    rw [List.foldl_cons, ih]
    cases m with
    | push a =>
      rw [step, taken, survivors, List.length_append, List.length_singleton]
      split_ifs with h
      · rw [h, Nat.sub_zero, List.take_of_length_le (by simp)]
        simp
      · rw [List.take_append_of_le_length (by omega),
          show stack.length + 1 - taken l = stack.length - (taken l - 1) by omega]
    | pop =>
      rw [step, taken, survivors, List.length_dropLast, List.dropLast_eq_take, List.take_take,
        Nat.min_eq_left (by omega)]
      congr 2
      omega
    | skip => rfl

/-- **The stack in the end holds the pushes that are not taken back.** -/
theorem run_eq_survivors (l : List (Move α)) : run l = survivors l := by
  rw [run, foldl_step, List.take_nil, List.nil_append]

/-- What is taken is what some stretch at the start takes more than it pushes:
the stretch that does so most. -/
theorem lt_taken_iff (n : ℕ) : n < taken l ↔ ∃ p, p <+: l ∧ pushes p + n < pops p := by
  induction l generalizing n with
  | nil =>
    refine iff_of_false (Nat.not_lt_zero n) ?_
    rintro ⟨p, hp, hlt⟩
    obtain rfl := List.prefix_nil.1 hp
    exact Nat.not_lt_zero _ hlt
  | cons m l ih =>
    -- a stretch that is not empty begins with the same move
    have hcons : (∃ p, p <+: m :: l ∧ pushes p + n < pops p) ↔
        ∃ p, p <+: l ∧ pushes (m :: p) + n < pops (m :: p) := by
      constructor
      · rintro ⟨_ | ⟨m', p⟩, hp, hlt⟩
        · exact absurd hlt (Nat.not_lt_zero _)
        · obtain ⟨rfl, hp'⟩ := List.cons_prefix_cons.1 hp
          exact ⟨p, hp', hlt⟩
      · rintro ⟨p, hp, hlt⟩
        exact ⟨m :: p, List.cons_prefix_cons.2 ⟨rfl, hp⟩, hlt⟩
    rw [hcons]
    cases m with
    | push a =>
      have hrec := ih (n + 1)
      rw [taken, Nat.lt_sub_iff_add_lt, hrec]
      refine exists_congr fun p => and_congr_right fun _ => ?_
      rw [pushes, pops, Nat.add_right_comm, Nat.add_assoc]
    | pop =>
      cases n with
      | zero =>
        exact iff_of_true (Nat.succ_pos _) ⟨[], List.nil_prefix, Nat.one_pos⟩
      | succ n =>
        rw [taken, Nat.add_lt_add_iff_right, ih]
        refine exists_congr fun p => and_congr_right fun _ => ?_
        rw [pushes, pops, ← Nat.add_assoc, Nat.add_lt_add_iff_right]
    | skip => exact ih n

/-- So a list is overdrawn if it takes anything from what is below. -/
theorem overdrawn_iff : Overdrawn l ↔ taken l ≠ 0 := by
  rw [Nat.ne_zero_iff_zero_lt, lt_taken_iff]
  rfl

/-- What is said of each entry and of the list behind it, for a list that begins
with `d`. -/
theorem forall_split_cons {γ : Type v} {d : γ} {cs : List γ} {P : γ → List γ → Prop} :
    (∀ before c after, d :: cs = before ++ c :: after → P c after) ↔
      P d cs ∧ ∀ before c after, cs = before ++ c :: after → P c after := by
  constructor
  · intro h
    refine ⟨h [] d cs (List.nil_append _).symm, fun before c after hcs => ?_⟩
    exact h (d :: before) c after (by rw [hcs, List.cons_append])
  · rintro ⟨hhead, htail⟩ (_ | ⟨d', before⟩) c after hcs
    · obtain ⟨rfl, rfl⟩ := List.cons.inj hcs
      exact hhead
    · exact htail before c after (List.cons.inj hcs).2

/-- For an empty list there is nothing to say. -/
theorem forall_split_nil {γ : Type v} {P : γ → List γ → Prop} :
    ∀ before c after, ([] : List γ) = before ++ c :: after → P c after :=
  fun before c after h => absurd h.symm (by simp)

/-- **What is true of the survivors is true of each push that is not taken
back.** -/
theorem forall_survivors_iff {P : α → Prop} : (∀ a ∈ survivors l, P a) ↔
    ∀ before m after, l = before ++ m :: after → ∀ a, m = .push a → ¬Overdrawn after → P a := by
  induction l with
  | nil => exact iff_of_true (fun a ha => absurd ha List.not_mem_nil) forall_split_nil
  | cons m l ih =>
    rw [forall_split_cons (P := fun m after => ∀ a, m = .push a → ¬Overdrawn after → P a), ← ih]
    cases m with
    | push b =>
      rw [survivors, overdrawn_iff]
      split_ifs with h
      · rw [List.forall_mem_cons]
        refine and_congr_left fun _ => ⟨fun hb a ha _ => ?_, fun ha => ha b rfl (not_not.2 h)⟩
        rwa [← Move.push.inj ha]
      · exact ⟨fun hall => ⟨fun _ _ hnot => absurd h hnot, hall⟩, fun hall => hall.2⟩
    | pop => exact ⟨fun hall => ⟨fun _ ha => (nomatch ha), hall⟩, fun hall => hall.2⟩
    | skip => exact ⟨fun hall => ⟨fun _ ha => (nomatch ha), hall⟩, fun hall => hall.2⟩

/-- **The first survivor**: the pushes before it are all taken back, each by a
stretch behind it that may reach over the survivor. -/
theorem head?_survivors_eq_some : (survivors l).head? = some a ↔
    ∃ before after, l = before ++ .push a :: after ∧ ¬Overdrawn after ∧
      ∀ b₁ b b₂, before = b₁ ++ .push b :: b₂ → Overdrawn (b₂ ++ .push a :: after) := by
  induction l with
  | nil =>
    refine iff_of_false (fun h => by cases h) ?_
    rintro ⟨before, after, hl, -⟩
    exact absurd hl.symm (by simp)
  | cons m l ih =>
    -- unless the first move is the survivor itself, it is a push that is taken back
    have hcons : (∃ before after, m :: l = before ++ .push a :: after ∧ ¬Overdrawn after ∧
          ∀ b₁ b b₂, before = b₁ ++ .push b :: b₂ → Overdrawn (b₂ ++ .push a :: after)) ↔
        (m = .push a ∧ ¬Overdrawn l) ∨
          ((∀ b, m = .push b → Overdrawn l) ∧ (survivors l).head? = some a) := by
      rw [ih]
      constructor
      · rintro ⟨_ | ⟨m', before⟩, after, hl, hafter, hbefore⟩
        · obtain ⟨rfl, rfl⟩ := List.cons.inj hl
          exact .inl ⟨rfl, hafter⟩
        · obtain ⟨rfl, rfl⟩ := List.cons.inj hl
          refine .inr ⟨fun b hb => hbefore [] b before (by rw [hb, List.nil_append]),
            before, after, rfl, hafter, fun b₁ b b₂ hb => ?_⟩
          exact hbefore (m :: b₁) b b₂ (by rw [hb, List.cons_append])
      · rintro (⟨rfl, hl⟩ | ⟨hm, before, after, rfl, hafter, hbefore⟩)
        · exact ⟨[], l, rfl, hl, fun b₁ b b₂ hb => absurd hb.symm (by simp)⟩
        · refine ⟨m :: before, after, rfl, hafter, ?_⟩
          rintro (_ | ⟨m', b₁⟩) b b₂ hb
          · obtain ⟨rfl, rfl⟩ := List.cons.inj hb
            exact hm b rfl
          · exact hbefore b₁ b b₂ (List.cons.inj hb).2
    rw [hcons, overdrawn_iff]
    cases m with
    | push b =>
      rw [survivors]
      split_ifs with h
      · simp [h]
      · simp [h]
    | pop => simp [survivors]
    | skip => simp [survivors]

/-! ### Moves for the entries of a list -/

variable {γ : Type v} {f : γ → Move α} {cs : List γ}

/-- The same for entries that are turned into moves. -/
theorem forall_survivors_map_iff {P : α → Prop} : (∀ a ∈ survivors (cs.map f), P a) ↔
    ∀ before c after, cs = before ++ c :: after → ∀ a, f c = .push a →
      ¬Overdrawn (after.map f) → P a := by
  rw [forall_survivors_iff]
  constructor
  · rintro h before c after rfl
    exact h (before.map f) (f c) (after.map f) (by rw [List.map_append, List.map_cons])
  · intro h before m after hl
    obtain ⟨before, rest, rfl, rfl, hrest⟩ := List.map_eq_append_iff.1 hl
    obtain ⟨c, after, rfl, rfl, rfl⟩ := List.map_eq_cons_iff.1 hrest
    exact h before c after rfl

/-- And the first survivor of such entries, said of the entries and not of their
moves. -/
theorem head?_survivors_map_eq_some : (survivors (cs.map f)).head? = some a ↔
    ∃ before c after, cs = before ++ c :: after ∧ f c = .push a ∧ ¬Overdrawn (after.map f) ∧
      ∀ b₁ b b₂ x, before = b₁ ++ b :: b₂ → f b = .push x →
        Overdrawn ((b₂ ++ c :: after).map f) := by
  rw [head?_survivors_eq_some]
  constructor
  · rintro ⟨before, after, hl, hafter, hbefore⟩
    obtain ⟨before, rest, rfl, rfl, hrest⟩ := List.map_eq_append_iff.1 hl
    obtain ⟨c, after, rfl, hc, rfl⟩ := List.map_eq_cons_iff.1 hrest
    refine ⟨before, c, after, rfl, hc, hafter, ?_⟩
    rintro b₁ b b₂ x rfl hb
    rw [List.map_append, List.map_cons, hc]
    exact hbefore (b₁.map f) x (b₂.map f) (by rw [List.map_append, List.map_cons, hb])
  · rintro ⟨before, c, after, rfl, hc, hafter, hbefore⟩
    refine ⟨before.map f, after.map f, by rw [List.map_append, List.map_cons, hc], hafter, ?_⟩
    intro b₁ x b₂ hb
    obtain ⟨b₁, rest, rfl, rfl, hrest⟩ := List.map_eq_append_iff.1 hb
    obtain ⟨b, b₂, rfl, hfb, rfl⟩ := List.map_eq_cons_iff.1 hrest
    rw [← hc, ← List.map_cons, ← List.map_append]
    exact hbefore b₁ b b₂ x rfl hfb

/-- Entries that do nothing can be left out, as they push nothing and take
nothing back. -/
theorem survivors_map_filter {p : γ → Bool} (h : ∀ c, p c = false → f c = .skip) (cs : List γ) :
    survivors ((cs.filter p).map f) = survivors (cs.map f) := by
  have htaken : ∀ cs : List γ, taken ((cs.filter p).map f) = taken (cs.map f) := by
    intro cs
    induction cs with
    | nil => rfl
    | cons c cs ih =>
      rw [List.filter_cons]
      split_ifs with hc
      · rw [List.map_cons, List.map_cons]
        cases f c <;> simp only [taken, ih]
      · rw [ih, List.map_cons, h c (Bool.eq_false_iff.2 hc), taken]
  induction cs with
  | nil => rfl
  | cons c cs ih =>
    rw [List.filter_cons]
    split_ifs with hc
    · rw [List.map_cons, List.map_cons]
      cases f c <;> simp only [survivors, htaken, ih]
    · rw [ih, List.map_cons, h c (Bool.eq_false_iff.2 hc), survivors]

/-- Entries that are only pushed all survive. -/
theorem survivors_map_push (as : List α) : survivors (as.map .push) = as := by
  have htaken : ∀ l : List α, taken (l.map .push) = 0 := by
    intro l
    induction l with
    | nil => rfl
    | cons a l ih => rw [List.map_cons, taken, ih]
  induction as with
  | nil => rfl
  | cons a as ih => rw [List.map_cons, survivors, if_pos (htaken as), ih]

/-- What is taken does not depend on what is pushed. -/
theorem taken_map_map (g : α → β) (l : List (Move α)) : taken (l.map (Move.map g)) = taken l := by
  induction l with
  | nil => rfl
  | cons m l ih =>
    rw [List.map_cons]
    cases m <;> simp only [Move.map, taken, ih]

/-- Other entries, the same moves.  What survives is decided by the moves alone,
so a name can be put for each entry. -/
theorem survivors_map_map (g : α → β) (l : List (Move α)) :
    survivors (l.map (Move.map g)) = (survivors l).map g := by
  induction l with
  | nil => rfl
  | cons m l ih =>
    rw [List.map_cons]
    cases m with
    | push a =>
      rw [Move.map, survivors, survivors, taken_map_map, ih]
      split_ifs <;> rfl
    | pop => exact ih
    | skip => exact ih

end

end Backtrack
end Lib
end Dukserver
