/-
# Progress by a rank

A machine makes progress towards a goal when there is a number that no step raises and
that the helpful steps lower, and when, short of the goal, some helpful step is enabled.
Which steps are helpful may depend on the state, and the rank may start again once the
goal was reached, so nothing is asked of the steps behind it.

Two things follow for every run.  It makes no more helpful steps than the rank it started
with before it gets to the goal (`Ranking.count_le`), so it gets there under every
schedule that goes on making them; and it can be continued to the goal by helpful steps
alone (`Ranking.exists_run`).
-/

import Dukserver.Lib.Machine

namespace Dukserver
namespace Lib
namespace Machine

variable {σ : Type*} {ℓ : Type*} {M : Machine σ ℓ}

/-- How many labels meet `H` in the state the labels before them lead to. -/
def countAlong (M : Machine σ ℓ) (H : σ → ℓ → Bool) (s : σ) : List ℓ → ℕ
  | [] => 0
  | l :: ls => (H s l).toNat + countAlong M H (M.next s l) ls

/-- A condition of the steps may be weakened. -/
theorem along_mono {P Q : σ → ℓ → Prop} (h : ∀ u l, P u l → Q u l) {s : σ} {ls : List ℓ}
    (hP : M.Along P s ls) : M.Along Q s ls := by
  induction ls generalizing s with
  | nil => trivial
  | cons l ls ih => exact ⟨h s l hP.1, ih hP.2⟩

/-- Nothing is asked of a run by no condition. -/
theorem along_true (s : σ) (ls : List ℓ) : M.Along (fun _ _ => True) s ls := by
  induction ls generalizing s with
  | nil => trivial
  | cons l ls ih => exact ⟨trivial, ih _⟩

/-- What each step says of its label holds of all labels. -/
theorem forall_of_along {P : σ → ℓ → Prop} {Q : ℓ → Prop} (h : ∀ u l, P u l → Q l) {s : σ}
    {ls : List ℓ} (hP : M.Along P s ls) : ∀ l ∈ ls, Q l := by
  induction ls generalizing s with
  | nil => exact fun l hl => absurd hl List.not_mem_nil
  | cons l ls ih => exact List.forall_mem_cons.2 ⟨h s l hP.1, ih hP.2⟩

/-- Where the labels alone decide, they are counted. -/
theorem countAlong_eq_countP {p : ℓ → Bool} {s : σ} {ls : List ℓ} :
    M.countAlong (fun _ l => p l) s ls = ls.countP p := by
  induction ls generalizing s with
  | nil => rfl
  | cons l ls ih =>
    rw [countAlong, ih, List.countP_cons, Nat.add_comm]
    cases p l <;> rfl

/-- The rank shows that the steps of `H` lead to `G`; `I` is what is known of
the states on the way, and `ok` of the steps. -/
structure Ranking (M : Machine σ ℓ) (I G : σ → Prop) (ok : σ → ℓ → Prop) (H : σ → ℓ → Bool)
    (rank : σ → ℕ) : Prop where
  keep : ∀ s l, I s → ¬G s → ok s l → M.Enabled s l → I (M.next s l)
  le : ∀ s l, I s → ¬G s → ok s l → M.Enabled s l → rank (M.next s l) ≤ rank s
  lt : ∀ s l, I s → ¬G s → ok s l → M.Enabled s l → H s l = true → rank (M.next s l) < rank s
  enabled : ∀ s, I s → ¬G s → ∃ l, M.Enabled s l ∧ ok s l ∧ H s l = true

namespace Ranking

variable {I G : σ → Prop} {ok : σ → ℓ → Prop} {H : σ → ℓ → Bool} {rank : σ → ℕ} {s t : σ}
  {ls : List ℓ}

/-- What is known on the way is known wherever a run has come that is short of
the goal. -/
theorem keep_run (h : M.Ranking I G ok H rank) (hI : I s) (hrun : M.Run s ls t)
    (hok : M.Along ok s ls) (hG : M.Along (fun u _ => ¬G u) s ls) : I t := by
  induction ls generalizing s with
  | nil =>
    rw [run_nil.1 hrun]
    exact hI
  | cons l ls ih =>
    obtain ⟨hl, hrun⟩ := run_cons.1 hrun
    exact ih (h.keep s l hI hG.1 hok.1 hl) hrun hok.2 hG.2

/-- **A run makes no more helpful steps than its rank**, as long as it is short
of the goal. -/
theorem count_le (h : M.Ranking I G ok H rank) (hI : I s) (hrun : M.Run s ls t)
    (hok : M.Along ok s ls) (hG : M.Along (fun u _ => ¬G u) s ls) :
    M.countAlong H s ls + rank t ≤ rank s := by
  induction ls generalizing s with
  | nil =>
    rw [run_nil.1 hrun]
    exact Nat.le_of_eq (Nat.zero_add _)
  | cons l ls ih =>
    obtain ⟨hl, hrun⟩ := run_cons.1 hrun
    have hrest := ih (h.keep s l hI hG.1 hok.1 hl) hrun hok.2 hG.2
    have hle := h.le s l hI hG.1 hok.1 hl
    rw [countAlong]
    cases hH : H s l with
    | true =>
      have hlt := h.lt s l hI hG.1 hok.1 hl hH
      rw [Bool.toNat_true]
      omega
    | false =>
      rw [Bool.toNat_false]
      omega

/-- **The goal can be reached**, by helpful steps alone: there always is one,
and each makes the rank smaller. -/
theorem exists_run (h : M.Ranking I G ok H rank) (hI : I s) :
    ∃ ls t, M.Run s ls t ∧ M.Along ok s ls ∧ M.Along (fun u l => H u l = true) s ls ∧
      ls.length ≤ rank s ∧ I t ∧ G t := by
  induction hn : rank s using Nat.strongRecOn generalizing s with
  | ind n ih =>
    by_cases hG : G s
    · exact ⟨[], s, rfl, trivial, trivial, Nat.zero_le _, hI, hG⟩
    · obtain ⟨l, hl, hok, hH⟩ := h.enabled s hI hG
      have hlt := h.lt s l hI hG hok hl hH
      obtain ⟨ls, t, hrun, hoks, hHs, hlen, ht⟩ :=
        ih _ (hn ▸ hlt) (h.keep s l hI hG hok hl) rfl
      refine ⟨l :: ls, t, ⟨hl, hrun⟩, ⟨hok, hoks⟩, ⟨hH, hHs⟩, ?_, ht⟩
      rw [List.length_cons]
      omega

/-- What every helpful step keeps short of the goal is kept on the way to it.
The rule is the one of `exists_run`, for the invariant with this added. -/
theorem exists_run_keeping (h : M.Ranking I G ok H rank) {J : σ → Prop}
    (hJ : ∀ u l, I u → ¬G u → J u → M.Enabled u l → H u l = true → J (M.next u l))
    (hI : I s) (hJs : J s) :
    ∃ ls t, M.Run s ls t ∧ M.Along ok s ls ∧ M.Along (fun u l => H u l = true) s ls ∧
      ls.length ≤ rank s ∧ I t ∧ G t ∧ J t := by
  have hboth : M.Ranking (fun u => I u ∧ J u) G (fun u l => ok u l ∧ H u l = true) H rank :=
    { keep := fun u l hu hG hok hl =>
        ⟨h.keep u l hu.1 hG hok.1 hl, hJ u l hu.1 hG hu.2 hl hok.2⟩
      le := fun u l hu hG hok hl => h.le u l hu.1 hG hok.1 hl
      lt := fun u l hu hG hok hl => h.lt u l hu.1 hG hok.1 hl
      enabled := fun u hu hG => by
        obtain ⟨l, hl, hok, hH⟩ := h.enabled u hu.1 hG
        exact ⟨l, hl, ⟨hok, hH⟩, hH⟩ }
  obtain ⟨ls, t, hrun, hok, hH, hlen, hIt, hGt⟩ := hboth.exists_run ⟨hI, hJs⟩
  exact ⟨ls, t, hrun, along_mono (fun _ _ hc => hc.1) hok, hH, hlen, hIt.1, hGt, hIt.2⟩

end Ranking

end Machine
end Lib
end Dukserver
