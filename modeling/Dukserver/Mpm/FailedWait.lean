/-
# When waiting for the response fails

`libhttpd/http_mpm.c`, `_worker_frontend` (lines 162-177).  If
`http_event_wait(event_done)` returns `HTTP_FALSE`, the frontend gives
`mutex_fastcgi` back, answers with status 500 and deletes its request, but the
request stays published: `event_fire` is still set, or the worker is on the
request, or `event_done` is still to be taken, by the next frontend.

So what is pending when the wait fails is pending when the mutex is given back
(`failedWait_pending`).  Without such a failure the slot is answered then
(`Sim.leaving`), and no request is read twice.
-/

import Dukserver.Mpm.Handoff

namespace Dukserver
namespace Mpm

open Lib (Slot)

variable {ι ρ : Type} [DecidableEq ι]

/-- Whenever `mutex_fastcgi` is given back, no event is pending, `*res` is
`NULL`, the worker is on no request, and the request of the frontend is not read
again. -/
def GivesIdle (tr : List (Label ι ρ)) : Prop :=
  ∀ tr₁ i tr₂ s, tr = tr₁ ++ .give i :: tr₂ → (mpm ι ρ).Run (init ι ρ) tr₁ s →
    s.Quiet ∧ s.res = none ∧ .call (s.frontend i).req ∉ tr₂ ∧
    ∀ tr₃ tr₄ t, tr₂ = tr₃ ++ .readReq :: tr₄ →
      (mpm ι ρ).Run (init ι ρ) (tr₁ ++ .give i :: tr₃) t → t.req ≠ (s.frontend i).req

/-- Between publishing the request and giving the mutex back. -/
def FrontendPc.handedOff : FrontendPc → Bool
  | .fire | .wait | .readRes | .clearRes | .give => true
  | _ => false

section Runs

variable {s t : State ι ρ} {l : Label ι ρ} {tr : List (Label ι ρ)} {i : ι}

/-- A frontend that has handed its request off after a step has just published
it, or had done so before. -/
theorem handedOff_of_next (hl : Enabled s l) (hi : ((next s l).frontend i).pc.handedOff = true) :
    l = .publish i ((next s l).frontend i).req ∨
      ((next s l).frontend i).req = (s.frontend i).req ∧ (s.frontend i).pc.handedOff = true := by
  by_cases hli : l.frontend = some i
  · have hstep := frontend_step hl hli
    revert hi hstep
    generalize (s.frontend i).pc = p
    generalize ((next s l).frontend i).pc = p'
    intro hi hstep
    cases hstep with
    | publish r =>
      obtain rfl : r = (s.frontend i).req := hl.2
      exact .inl (by simp [next])
    | setFire | doneTaken | doneFail | readRes r x | clearRes => exact .inr ⟨by simp [next], rfl⟩
    | _ => cases hi
  · rw [next_frontend_of_ne hli] at hi ⊢
    exact .inr ⟨rfl, hi⟩

/-- A frontend that has handed its request off has published it.  The states
behind the hand-off are reached through the step that writes the slot. -/
theorem run_handedOff (h : (mpm ι ρ).Run (init ι ρ) tr s) :
    ∀ i, (s.frontend i).pc.handedOff = true → .publish i (s.frontend i).req ∈ tr := by
  refine Lib.Machine.run_induction
    (P := fun tr s => ∀ i, (s.frontend i).pc.handedOff = true → .publish i (s.frontend i).req ∈ tr)
    (fun i hi => by cases hi) (fun tr s l _ ih hl i hi => ?_) h
  show _ ∈ tr ++ [l]
  rw [List.mem_append, List.mem_singleton]
  rcases handedOff_of_next hl hi with hpub | ⟨hreq, hbefore⟩
  · exact .inr hpub.symm
  · refine .inl ?_
    show Label.publish i ((next s l).frontend i).req ∈ tr
    rw [hreq]
    exact ih i hbefore

/-! ### Runs in which no wait fails -/

omit [DecidableEq ι] in
/-- A publication is one of the slot. -/
theorem mem_publishes {r : Option ℕ} (h : .publish i r ∈ tr) :
    r ∈ Slot.publishes (tr.map slotLabel) :=
  List.mem_filterMap.2 ⟨.publish i r, List.mem_map.2 ⟨_, h, rfl⟩, rfl⟩

omit [DecidableEq ι] in
/-- And a call is one of the slot. -/
theorem mem_calls {r : Option ℕ} (h : .call r ∈ tr) : r ∈ Slot.calls (tr.map slotLabel) :=
  List.mem_filterMap.2 ⟨.call r, List.mem_map.2 ⟨_, h, rfl⟩, rfl⟩

/-- **Without a failed wait the hand-off is idle** when the mutex is given back,
and the request was called. -/
theorem idle_of_give (h : (mpm ι ρ).Run (init ι ρ) tr s) (hw : ∀ i, .doneFail i ∉ tr)
    (hi : (s.frontend i).pc = .give) :
    s.Quiet ∧ s.res = none ∧ (s.frontend i).req ∈ Slot.calls (tr.map slotLabel) := by
  obtain ⟨c, hrun, hsim⟩ := run_sim h hw
  obtain ⟨rfl, hquiet, hres⟩ := hsim.leaving (.inr hi)
  refine ⟨hquiet, hres hi, ?_⟩
  have hpub := mem_publishes (run_handedOff h i (by rw [hi]; rfl))
  rw [Slot.publishes_eq hrun] at hpub
  simpa [Slot.waiting] using hpub

/-- What the worker is about to read out of `*req` was not called yet, as each
request is published once. -/
theorem not_called_of_readReq (h : (mpm ι ρ).Run (init ι ρ) tr s) (hw : ∀ i, .doneFail i ∉ tr)
    (hr : s.fastcgi.pc = .readReq) : s.req ∉ Slot.calls (tr.map slotLabel) := by
  obtain ⟨c, hrun, hsim⟩ := run_sim h hw
  obtain ⟨j, rfl, -⟩ := hsim.loading (.inl hr)
  have hnd : (Slot.publishes (tr.map slotLabel)).Nodup := (run_fresh h).nodup
  rw [Slot.publishes_eq hrun] at hnd
  exact fun hmem => (List.nodup_append.1 hnd).2.2 _ hmem _ (List.mem_singleton_self _) rfl

/-- Without a failed wait every `http_mutex_give` leaves the slot idle: it is
answered then. -/
theorem givesIdle_of_run (h : (mpm ι ρ).Run (init ι ρ) tr s) (hw : ∀ i, .doneFail i ∉ tr) :
    GivesIdle tr := by
  rintro tr₁ i tr₂ s₁ rfl h₁
  have hw₁ : ∀ j, .doneFail j ∉ tr₁ := fun j hj => hw j (List.mem_append_left _ hj)
  obtain ⟨hquiet, hres, hcalled⟩ := idle_of_give h₁ hw₁ (Lib.Machine.enabled_of_split h h₁)
  refine ⟨hquiet, hres, fun hcall => ?_, ?_⟩
  · obtain ⟨c, hrun, -⟩ := run_sim h hw
    have hnd : (Slot.publishes ((tr₁ ++ .give i :: tr₂).map slotLabel)).Nodup :=
      (run_fresh h).nodup
    rw [Slot.publishes_eq hrun, List.map_append, Slot.calls, List.filterMap_append] at hnd
    refine (List.nodup_append.1 (List.nodup_append.1 hnd).1).2.2 _ hcalled _ ?_ rfl
    exact mem_calls (List.mem_cons_of_mem _ hcall)
  · rintro tr₃ tr₄ t rfl ht he
    have hsplit : tr₁ ++ .give i :: (tr₃ ++ .readReq :: tr₄) =
        (tr₁ ++ .give i :: tr₃) ++ .readReq :: tr₄ := by simp
    rw [hsplit] at h hw
    have hread := Lib.Machine.enabled_of_split h ht
    refine not_called_of_readReq ht (fun j hj => hw j (List.mem_append_left _ hj)) hread ?_
    rw [he, List.map_append, Slot.calls, List.filterMap_append]
    exact List.mem_append_left _ hcalled

/-! ### After a failed wait -/

/-- Only `http_mutex_take` and `http_mutex_give` change who owns the mutex.  So
between these two a frontend owns it, whatever the other threads do. -/
theorem next_mutexFastcgi (ht : ∀ j, l ≠ .take j) (hg : ∀ j, l ≠ .give j) :
    (next s l).mutexFastcgi = s.mutexFastcgi := by
  cases l with
  | take j => exact absurd rfl (ht j)
  | give j => exact absurd rfl (hg j)
  | pollAccepter | testBreak | pollFastcgi =>
    simp only [next]
    split <;> (try split) <;> rfl
  | accept conn => cases conn <;> rfl
  | recv j got => cases got <;> rfl
  | _ => rfl

/-- A frontend in the critical section owns the mutex, whatever fails: it enters
by `http_mutex_take`, and leaves by `http_mutex_give` also behind a failed wait. -/
theorem step_critical (h : ∀ i, (s.frontend i).pc.critical = true → s.mutexFastcgi = some i)
    (hl : Enabled s l) :
    ∀ i, ((next s l).frontend i).pc.critical = true → (next s l).mutexFastcgi = some i := by
  intro i hi
  by_cases hli : l.frontend = some i
  · have hstep := frontend_step hl hli
    have howner := h i
    revert hi hstep howner
    generalize (s.frontend i).pc = p
    generalize ((next s l).frontend i).pc = p'
    intro hi hstep howner
    cases hstep with
    | take => rfl
    | publish | setFire | doneTaken | doneFail | readRes | clearRes => exact howner rfl
    | _ => cases hi
  · rw [next_frontend_of_ne hli] at hi
    have howner := h i hi
    rw [next_mutexFastcgi, howner]
    · rintro j rfl
      rw [hl.2] at howner
      cases howner
    · rintro j rfl
      have hp : (s.frontend j).pc = .give := hl
      have hj := h j (by rw [hp]; rfl)
      rw [howner] at hj
      exact hli hj.symm

/-- **What is pending stays pending** until a frontend takes `event_done`: the
worker only turns one kind into the next. -/
theorem not_quiet_next (hq : ¬s.Quiet) (hl : Enabled s l) (hdone : ∀ j, l ≠ .doneTaken j) :
    ¬(next s l).Quiet := by
  cases l with
  | doneTaken j => exact absurd rfl (hdone j)
  | fireTaken | readReq | call _ | ret _ _ | writeRes => exact fun h => by cases h.2.2
  | setDone => exact fun h => absurd h.2.1 (Nat.succ_ne_zero _)
  | setFire j => exact fun h => absurd h.1 (Nat.succ_ne_zero _)
  | testBreak | pollFastcgi =>
    have hb : s.fastcgi.pc.busy = false := by rw [show s.fastcgi.pc = _ from hl]; rfl
    intro h
    refine hq ⟨?_, ?_, hb⟩
    · have hf := h.1
      simp only [next] at hf
      split at hf <;> (try split at hf) <;> exact hf
    · have hd := h.2.1
      simp only [next] at hd
      split at hd <;> (try split at hd) <;> exact hd
  | initializeCb | fireTimeout | finializeCb | fastcgiEnd =>
    have hb : s.fastcgi.pc.busy = false := by rw [show s.fastcgi.pc = _ from hl]; rfl
    exact fun h => hq ⟨h.1, h.2.1, hb⟩
  | beginFastcgi =>
    have hb : s.fastcgi.pc.busy = false := by rw [hl.2]; rfl
    exact fun h => hq ⟨h.1, h.2.1, hb⟩
  | pollAccepter =>
    simp only [next]
    split <;> exact hq
  | accept conn => cases conn <;> exact hq
  | recv j got => cases got <;> exact hq
  | _ => exact hq

/-- In every run, the owner of the mutex is in the critical section alone, and
while it waits something is pending. -/
structure Waiting (s : State ι ρ) : Prop where
  critical : ∀ i, (s.frontend i).pc.critical = true → s.mutexFastcgi = some i
  pending : ∀ i, (s.frontend i).pc = .wait → ¬s.Quiet

omit [DecidableEq ι] in
/-- Two frontends are not in the critical section. -/
theorem Waiting.eq (h : Waiting s) {j : ι} (hi : (s.frontend i).pc.critical = true)
    (hj : (s.frontend j).pc.critical = true) : i = j :=
  Option.some.inj ((h.critical i hi).symm.trans (h.critical j hj))

/-- While a frontend waits, something is pending: each step of another thread
leaves it so. -/
theorem step_waiting (h : Waiting s) (hl : Enabled s l) : Waiting (next s l) where
  critical := step_critical h.critical hl
  pending := fun i hi => by
    by_cases hli : l.frontend = some i
    · have hstep := frontend_step hl hli
      rw [hi] at hstep
      generalize (s.frontend i).pc = p at hstep
      cases hstep
      exact fun hq => absurd hq.1 (Nat.succ_ne_zero _)
    · rw [next_frontend_of_ne hli] at hi
      refine not_quiet_next (h.pending i hi) hl ?_
      rintro j rfl
      exact hli (congrArg some (h.eq (by rw [hl.1]; rfl) (by rw [hi]; rfl)))

/-- It is so in every run, also in one with failed waits. -/
theorem run_waiting (h : (mpm ι ρ).Run (init ι ρ) tr s) : Waiting s :=
  Lib.Machine.run_induction (P := fun _ s => Waiting s)
    ⟨(fun i hi => by cases hi), (fun i hi => by cases hi)⟩
    (fun _ _ _ _ ih hl => step_waiting ih hl) h

/-- **What is pending when the wait fails is pending until the mutex is given
back**, as nobody else takes `event_done` meanwhile. -/
theorem failedWait_pending {tr₁ tr₂ : List (Label ι ρ)}
    (h : (mpm ι ρ).Run (init ι ρ) (tr₁ ++ .doneFail i :: tr₂) s) (hg : .give i ∉ tr₂) :
    (s.frontend i).pc = .give ∧ ¬s.Quiet := by
  induction tr₂ using List.reverseRecOn generalizing s with
  | nil =>
    obtain ⟨u, hu, hl, rfl⟩ := Lib.Machine.run_concat.1 h
    have hp : (u.frontend i).pc = .wait := hl
    refine ⟨?_, (run_waiting hu).pending i hp⟩
    show ((u.goto i .give).frontend i).pc = .give
    rw [State.goto_self]
  | append_singleton tr₂ l ih =>
    rw [← List.cons_append, ← List.append_assoc] at h
    obtain ⟨u, hu, hl, rfl⟩ := Lib.Machine.run_concat.1 h
    rw [List.mem_append, not_or, List.mem_singleton] at hg
    obtain ⟨hp, hq⟩ := ih hu hg.1
    have hli : l.frontend ≠ some i := fun hli => by
      have hstep := frontend_step hl hli
      rw [hp] at hstep
      generalize ((next u l).frontend i).pc = p at hstep
      cases hstep
      exact hg.2 rfl
    constructor
    · show ((next u l).frontend i).pc = .give
      rw [next_frontend_of_ne hli, hp]
    · refine not_quiet_next hq hl ?_
      rintro j rfl
      exact hli (congrArg some ((run_waiting hu).eq (by rw [hl.1]; rfl) (by rw [hp]; rfl)))

/-- **The hand-off is idle whenever the mutex is given back**, in every run in
which no wait for `event_done` fails, and in no run in which a frontend whose
wait has failed gives it back. -/
theorem givesIdle_unlessFailed (h : (mpm ι ρ).Run (init ι ρ) tr s) :
    ((∀ i, .doneFail i ∉ tr) → GivesIdle tr) ∧
      ∀ tr₁ i tr₂, tr = tr₁ ++ .doneFail i :: tr₂ → .give i ∈ tr₂ → ¬GivesIdle tr := by
  refine ⟨givesIdle_of_run h, ?_⟩
  rintro tr₁ i tr₂ rfl hgive hidle
  obtain ⟨tr₃, tr₄, rfl, hfirst⟩ := List.eq_append_cons_of_mem hgive
  have hsplit : tr₁ ++ .doneFail i :: (tr₃ ++ .give i :: tr₄) =
      (tr₁ ++ .doneFail i :: tr₃) ++ .give i :: tr₄ := by simp
  rw [hsplit] at h
  obtain ⟨u, hu, -⟩ := Lib.Machine.exists_run_of_split h
  exact (failedWait_pending hu hfirst).2 (hidle _ i tr₄ u hsplit hu).1

end Runs

/-- Satisfiability. -/
theorem givesIdle_twoFrontends : GivesIdle twoFrontends :=
  (givesIdle_unlessFailed (ρ := ℕ) (Lib.Machine.run_iff_exec.2 ⟨by decide, rfl⟩)).1 (by decide)

/-- The wait of a frontend fails.  It gives the mutex back and deletes its
request, and then the worker takes it. -/
def failedWait : List (Label Bool ℕ) :=
  [.start, .beginFastcgi, .testBreak, .initializeCb, .pollFastcgi, .pollAccepter,
   .accept (some true), .recv true true, .take true, .publish true (some 0), .setFire true,
   .doneFail true, .give true, .answer true, .delete true (some 0) false, .fireTaken, .readReq,
   .call (some 0)]

/-- `event_fire` is still set, and the deleted request is processed. -/
theorem givesIdle_failedWait :
    ∃ s, (mpm Bool ℕ).Run (init Bool ℕ) failedWait s ∧ ¬GivesIdle failedWait := by
  refine ⟨_, Lib.Machine.run_iff_exec.2 ⟨by decide, rfl⟩, fun h => ?_⟩
  have hgive := h (failedWait.take 12) true (failedWait.drop 13) _ (by decide)
    (Lib.Machine.run_iff_exec.2 ⟨by decide, rfl⟩)
  exact absurd hgive.1.1 (by decide)

end Mpm
end Dukserver
