/-
# Every hand-off comes to its end

`libhttpd/http_mpm.c`, `_worker_frontend` (lines 162-177) and `_worker_fastcgi`.  The
frontend that has `mutex_fastcgi` waits for the worker without a timeout, and the worker
comes round to `event_fire` again and again, whatever it was doing: on a request, between
two rounds, or initializing itself again after `HTTP_MPM_MAX_REQUESTS` of them.  As long
as `http_mpm_close` does not stop the worker, the steps that are left of a hand-off can be
counted (`handoffRank`): no step of any thread adds one, and each step of the owner, and
each step of the worker from `event_fire` to `event_done`, takes one away.

So a hand-off ends within seventeen such steps (`handoff_bounded`), and every request gets
its turn and its answer in some continuation (`handoff_progress`).  Once the worker has
ended, none does (`handoff_stuck`).
-/

import Dukserver.Lib.Progress
import Dukserver.Mpm.Handoff
import Mathlib.Data.Fintype.Basic

namespace Dukserver
namespace Mpm

open Lib (Slot)

variable {ι ρ : Type}

/-- The steps of a server that is not closed, whose waits succeed and whose
semaphores time out only while their count is zero. -/
def Running (s : State ι ρ) (l : Label ι ρ) : Prop :=
  (∀ i, l ≠ .doneFail i) ∧ l ≠ .setBreakFastcgi ∧ (l = .fireTimeout → s.eventFire = 0)

instance [Fintype ι] [DecidableEq ι] [DecidableEq ρ] (s : State ι ρ) (l : Label ι ρ) :
    Decidable (Running s l) :=
  inferInstanceAs (Decidable (_ ∧ _ ∧ _))

/-- The worker is not told to stop, and it was started before the first
frontend. -/
structure Serving (s : State ι ρ) : Prop where
  noBreak : s.eventBreakFastcgi = 0
  flag : s.fastcgi.fastcgiBreak = false
  alive : s.fastcgi.pc ≠ .exit ∧ s.fastcgi.pc ≠ .ended
  unborn : s.fastcgi.pc = .unborn →
    (s.accepter = .unborn ∨ s.accepter = .beginFastcgi) ∧ ∀ i, (s.frontend i).pc = .unborn

/-- The steps of the owner that are left, with room for those of the worker
where it has to wait for them. -/
def FrontendPc.rank : FrontendPc → ℕ
  | .publish => 17
  | .fire => 16
  | .wait => 4
  | .readRes => 3
  | .clearRes => 2
  | .give => 1
  | .unborn | .recv | .take | .answer | .delete | .close | .ended => 0

/-- The steps of the worker that are left until it sets `event_done`, if
`event_fire` is set or was taken. -/
def Fastcgi.rank (w : Fastcgi ρ) : ℕ :=
  match w.pc with
  | .poll => if w.nrRequest < HTTP_MPM_MAX_REQUESTS then 7 else 11
  | .finializeCb => 10
  | .loop => 9
  | .initializeCb => 8
  | .waitFire => 6
  | .readReq => 5
  | .call => 4
  | .process => 3
  | .writeRes => 2
  | .setDone => 1
  | .unborn | .exit | .ended => 0

/-- The steps that are left of the hand-off. -/
def handoffRank (s : State ι ρ) : ℕ :=
  match s.mutexFastcgi with
  | none => 0
  | some i => (s.frontend i).pc.rank +
      if (s.frontend i).pc = .wait ∧ s.eventDone = 0 then s.fastcgi.rank else 0

variable [DecidableEq ι]

/-- A step of the owner, or of the worker while the owner waits for it. -/
def Helps (s : State ι ρ) (l : Label ι ρ) : Bool :=
  match s.mutexFastcgi with
  | none => false
  | some i => decide l.Reliable && (decide (l.frontend = some i) ||
      (l.ofFastcgi && decide ((s.frontend i).pc = .wait ∧ s.eventDone = 0)))

section Serving

variable {s t : State ι ρ} {l : Label ι ρ}

omit [DecidableEq ι] in
/-- At the start nothing stops the worker: it is not there yet, and nobody is
before it. -/
theorem init_serving : Serving (init ι ρ) :=
  ⟨rfl, rfl, by simp [init], fun _ => ⟨.inl rfl, fun _ => rfl⟩⟩

omit [DecidableEq ι] in
/-- The worker is left alone by a step that does not touch it or its flag. -/
theorem Serving.congr (h : Serving s) (hb : t.eventBreakFastcgi = s.eventBreakFastcgi)
    (hw : t.fastcgi = s.fastcgi)
    (hu : s.fastcgi.pc = .unborn → (t.accepter = .unborn ∨ t.accepter = .beginFastcgi) ∧
      ∀ i, (t.frontend i).pc = .unborn) : Serving t :=
  ⟨hb.trans h.noBreak, by rw [hw]; exact h.flag, by rw [hw]; exact h.alive, by rw [hw]; exact hu⟩

omit [DecidableEq ι] in
/-- The worker goes on, and does not end. -/
theorem Serving.fastcgiGoto (h : Serving s) (hb : t.eventBreakFastcgi = s.eventBreakFastcgi)
    (hflag : t.fastcgi.fastcgiBreak = s.fastcgi.fastcgiBreak)
    (hpc : t.fastcgi.pc ≠ .exit ∧ t.fastcgi.pc ≠ .ended ∧ t.fastcgi.pc ≠ .unborn) : Serving t :=
  ⟨hb.trans h.noBreak, hflag.trans h.flag, ⟨hpc.1, hpc.2.1⟩, fun hu => absurd hu hpc.2.2⟩

omit [DecidableEq ι] in
/-- Once a frontend is there, the worker is: main starts it first. -/
theorem Serving.born (h : Serving s) {i : ι} (hi : (s.frontend i).pc ≠ .unborn) :
    s.fastcgi.pc ≠ .unborn := fun hu => hi ((h.unborn hu).2 i)

/-- Nothing stops the worker but `http_mpm_close`: it leaves its loop only by
the flag that is set there. -/
theorem step_serving (h : Serving s) (hl : Enabled s l) (hne : l ≠ .setBreakFastcgi) :
    Serving (next s l) := by
  cases l with
  | setBreakFastcgi => exact absurd rfl hne
  | start => exact h.congr rfl rfl fun hu => ⟨.inr rfl, (h.unborn hu).2⟩
  | setBreakAccepter | waitAccepterExit | accepterExitFail | waitFastcgiExit | fastcgiExitFail
  | deleteBreaks | deleteMutex | deleteFire | deleteDone => exact h.congr rfl rfl h.unborn
  | beginFastcgi =>
    exact ⟨h.noBreak, rfl, by simp [next], fun hu => by simp [next] at hu⟩
  | pollAccepter =>
    have hborn : s.fastcgi.pc ≠ .unborn := fun hu => by
      have ha := (h.unborn hu).1
      rw [show s.accepter = .poll from hl] at ha
      simp at ha
    simp only [next]
    split <;> exact h.congr rfl rfl fun hu => absurd hu hborn
  | accepterEnd =>
    refine h.congr rfl rfl fun hu => ?_
    have ha := (h.unborn hu).1
    rw [show s.accepter = .exit from hl] at ha
    simp at ha
  | accept conn =>
    have hborn : s.fastcgi.pc ≠ .unborn := fun hu => by
      have ha := (h.unborn hu).1
      rw [accepter_of_accept hl]
        at ha
      simp at ha
    cases conn <;> exact h.congr rfl rfl fun hu => absurd hu hborn
  | testBreak =>
    simp only [next, h.flag, h.noBreak, Nat.lt_irrefl, if_false, Bool.false_eq_true]
    exact h.fastcgiGoto rfl rfl (by simp [State.fastcgiGoto])
  | pollFastcgi =>
    simp only [next, h.noBreak, Nat.lt_irrefl, if_false]
    split <;> exact h.fastcgiGoto rfl rfl (by simp [State.fastcgiGoto])
  | initializeCb | fireTimeout | fireTaken | readReq | call _ | ret _ _ | writeRes | setDone
  | finializeCb =>
    exact h.fastcgiGoto rfl rfl (by simp [next, State.fastcgiGoto])
  | fastcgiEnd => exact absurd hl h.alive.1
  | recv i got =>
    have hborn := h.born (i := i) (by rw [show (s.frontend i).pc = .recv from hl]; simp)
    cases got <;> exact h.congr rfl rfl fun hu => absurd hu hborn
  | take i | publish i _ | doneTaken i | readRes i _ _ | delete i _ _ =>
    have hborn := h.born (i := i) (by rw [hl.1]; simp)
    exact h.congr rfl rfl fun hu => absurd hu hborn
  | takeFail i | setFire i | doneFail i | clearRes i | give i | answer i | close i =>
    have hborn := h.born (i := i) (by rw [show (s.frontend i).pc = _ from hl]; simp)
    exact h.congr rfl rfl fun hu => absurd hu hborn

end Serving

section Rank

variable {s t : State ι ρ} {c : Slot ι (Option ℕ) (Option ρ)} {l : Label ι ρ} {i : ι}

omit [DecidableEq ι] in
/-- The steps that are left when a frontend has the mutex: its own, and those of
the worker it waits for. -/
theorem handoffRank_owner (hm : s.mutexFastcgi = some i) :
    handoffRank s = (s.frontend i).pc.rank +
      if (s.frontend i).pc = .wait ∧ s.eventDone = 0 then s.fastcgi.rank else 0 := by
  rw [handoffRank, hm]

omit [DecidableEq ι] in
/-- They depend on the owner, on `event_done` and on the worker only.  So a step
of anybody else leaves them as they are. -/
theorem handoffRank_congr (hm : t.mutexFastcgi = s.mutexFastcgi)
    (hi : ∀ i, s.mutexFastcgi = some i → t.frontend i = s.frontend i)
    (hd : t.eventDone = s.eventDone) (hw : t.fastcgi = s.fastcgi) :
    handoffRank t = handoffRank s := by
  cases h : s.mutexFastcgi with
  | none => rw [handoffRank, handoffRank, hm, h]
  | some i => rw [handoffRank_owner (hm.trans h), handoffRank_owner h, hi i h, hd, hw]

omit [DecidableEq ι] in
/-- The worker is eleven steps from `event_done` at most: when it is to begin
its initialization again. -/
theorem Fastcgi.rank_le (w : Fastcgi ρ) : w.rank ≤ 11 := by
  rw [Fastcgi.rank]
  split <;> (try split_ifs) <;> simp

omit [DecidableEq ι] in
/-- And a hand-off seventeen steps from its end.  A frontend that waits has four
left and the worker at most eleven, and two come before. -/
theorem handoffRank_le (s : State ι ρ) : handoffRank s ≤ 17 := by
  have hw := s.fastcgi.rank_le
  cases hm : s.mutexFastcgi with
  | none =>
    rw [handoffRank, hm]
    exact Nat.zero_le _
  | some i =>
    rw [handoffRank_owner hm]
    split_ifs with hp
    · rw [hp.1]
      simp only [FrontendPc.rank]
      omega
    · cases (s.frontend i).pc <;> simp [FrontendPc.rank]

/-- A step of the worker changes neither the owner nor a frontend, and takes
back no `event_done`. -/
theorem next_of_ofFastcgi (h : l.ofFastcgi = true) :
    (next s l).mutexFastcgi = s.mutexFastcgi ∧ (next s l).frontend = s.frontend ∧
      s.eventDone ≤ (next s l).eventDone ∧ l.frontend = none := by
  cases l with
  | testBreak | pollFastcgi =>
    simp only [next]
    split
    · exact ⟨rfl, rfl, Nat.le_refl _, rfl⟩
    · split <;> exact ⟨rfl, rfl, Nat.le_refl _, rfl⟩
  | setDone => exact ⟨rfl, rfl, Nat.le_succ _, rfl⟩
  | beginFastcgi | initializeCb | fireTimeout | fireTaken | readReq | call _ | ret _ _ | writeRes
  | finializeCb | fastcgiEnd => exact ⟨rfl, rfl, Nat.le_refl _, rfl⟩
  | _ => cases h

/-- **The worker comes closer to `event_done`** with each of its steps, once
`event_fire` was set. -/
theorem fastcgi_rank_lt (hs : Serving s) (hfire : s.fastcgi.pc.busy = false → 0 < s.eventFire)
    (hborn : s.fastcgi.pc ≠ .unborn) (hok : Running s l) (hl : Enabled s l)
    (h : l.ofFastcgi = true) (hd : s.eventDone = 0) :
    (if (next s l).eventDone = 0 then (next s l).fastcgi.rank else 0) < s.fastcgi.rank := by
  cases l with
  | beginFastcgi => exact absurd hl.2 hborn
  | fastcgiEnd => exact absurd hl hs.alive.1
  | fireTimeout =>
    have hw : s.fastcgi.pc = .waitFire := hl
    have hpos := hfire (by rw [hw]; rfl)
    have hzero := hok.2.2 rfl
    omega
  | testBreak =>
    have hw : s.fastcgi.pc = .loop := hl
    simp [next, hs.flag, hs.noBreak, State.fastcgiGoto, hd, Fastcgi.rank, hw]
  | pollFastcgi =>
    have hw : s.fastcgi.pc = .poll := hl
    by_cases hn : s.fastcgi.nrRequest < HTTP_MPM_MAX_REQUESTS
    · have hle := Nat.not_le.2 hn
      simp [next, hs.noBreak, State.fastcgiGoto, hd, Fastcgi.rank, hw, hn, hle]
    · have hle := Nat.not_lt.1 hn
      simp [next, State.fastcgiGoto, hd, Fastcgi.rank, hw, hn, hle]
  | initializeCb =>
    have hw : s.fastcgi.pc = .initializeCb := hl
    simp [next, hd, Fastcgi.rank, hw, HTTP_MPM_MAX_REQUESTS]
  | fireTaken | call _ | ret _ _ =>
    have hw : s.fastcgi.pc = _ := hl.1
    simp [next, State.fastcgiGoto, hd, Fastcgi.rank, hw]
  | readReq | writeRes | setDone | finializeCb =>
    have hw : s.fastcgi.pc = _ := hl
    simp [next, State.fastcgiGoto, hd, Fastcgi.rank, hw]
  | _ => cases h

omit [DecidableEq ι] in
/-- While the owner waits, `event_fire` is set or the worker is on its request:
it was given before the wait, and only the worker takes it. -/
theorem Sim.fire_of_wait (h : Sim s c) (hm : s.mutexFastcgi = some i)
    (hp : (s.frontend i).pc = .wait) (hd : s.eventDone = 0) (hb : s.fastcgi.pc.busy = false) :
    0 < s.eventFire := by
  have ho := h.mutex.symm.trans hm
  have hs := h.shape
  cases c <;> simp only [Slot.owner, Option.some.injEq, reduceCtorEq] at ho <;>
    simp only [Shape, State.Quiet] at hs <;> grind [FastcgiPc.busy]

omit [DecidableEq ι] in
/-- Nobody else is in the critical section, as the mutex has one owner. -/
theorem Sim.eq_owner (h : Sim s c) (hm : s.mutexFastcgi = some i) {j : ι}
    (hj : (s.frontend j).pc.critical = true) : j = i :=
  (h.owner_eq hj i (h.mutex.symm.trans hm)).symm

/-- A step of another thread than the owner and the worker does not touch the
hand-off. -/
theorem next_of_other (h : Sim s c) (hm : s.mutexFastcgi = some i) (hl : Enabled s l)
    (hw : l.ofFastcgi = false) (hi : l.frontend ≠ some i) :
    (next s l).mutexFastcgi = s.mutexFastcgi ∧ (next s l).eventDone = s.eventDone ∧
      (next s l).frontend i = s.frontend i ∧ (next s l).fastcgi = s.fastcgi := by
  have hfrontend := next_frontend_of_ne (s := s) hi
  have hfastcgi := next_fastcgi_of_not (s := s) hw
  have hother : ∀ j, (s.frontend j).pc.critical = true → l.frontend ≠ some j := by
    rintro j hj he
    exact hi (h.eq_owner hm hj ▸ he)
  refine ⟨?_, ?_, hfrontend, hfastcgi⟩
  · cases l with
    | take j => cases hm.symm.trans hl.2
    | give j => exact absurd rfl (hother j (by rw [show (s.frontend j).pc = .give from hl]; rfl))
    | pollAccepter =>
      simp only [next]
      split <;> rfl
    | accept conn => cases conn <;> rfl
    | recv j got => cases got <;> rfl
    | testBreak | pollFastcgi => cases hw
    | _ => rfl
  · cases l with
    | doneTaken j => exact absurd rfl (hother j (by rw [hl.1]; rfl))
    | setDone => cases hw
    | pollAccepter =>
      simp only [next]
      split <;> rfl
    | accept conn => cases conn <;> rfl
    | recv j got => cases got <;> rfl
    | testBreak | pollFastcgi => cases hw
    | _ => rfl

/-- A step of the owner brings the hand-off closer to its end: it goes through
the critical section in one direction. -/
theorem owner_rank_lt (h : Sim s c) (hm : s.mutexFastcgi = some i) (hok : Running s l)
    (hl : Enabled s l) (hi : l.frontend = some i) : handoffRank (next s l) < handoffRank s := by
  have hcritical := h.critical_of_owner (h.mutex.symm.trans hm)
  have hle := s.fastcgi.rank_le
  rw [handoffRank_owner hm]
  cases l with
  | accept conn =>
    obtain rfl : conn = some i := hi
    rw [hl.2] at hcritical
    cases hcritical
  | recv j got =>
    obtain rfl : j = i := Option.some.inj hi
    rw [show (s.frontend j).pc = .recv from hl] at hcritical
    cases hcritical
  | take j => cases hm.symm.trans hl.2
  | doneFail j => exact absurd rfl (hok.1 j)
  | takeFail j | answer j | close j =>
    obtain rfl : j = i := Option.some.inj hi
    rw [show (s.frontend j).pc = _ from hl] at hcritical
    cases hcritical
  | delete j r http10 =>
    obtain rfl : j = i := Option.some.inj hi
    rw [hl.1] at hcritical
    cases hcritical
  | publish j r =>
    obtain rfl : j = i := Option.some.inj hi
    rw [handoffRank_owner (s := next s (.publish j r)) hm]
    simp [next, hl.1, FrontendPc.rank]
  | setFire j =>
    obtain rfl : j = i := Option.some.inj hi
    have hp : (s.frontend j).pc = .fire := hl
    rw [handoffRank_owner (s := next s (.setFire j)) hm]
    simp only [next, State.goto_self, hp, FrontendPc.rank]
    split_ifs <;> simp [State.goto, State.setFrontend] <;> omega
  | doneTaken j =>
    obtain rfl : j = i := Option.some.inj hi
    rw [handoffRank_owner (s := next s (.doneTaken j)) hm]
    simp only [next, State.goto_self, hl.1, FrontendPc.rank, reduceCtorEq, false_and, if_false]
    omega
  | readRes j r x =>
    obtain rfl : j = i := Option.some.inj hi
    rw [handoffRank_owner (s := next s (.readRes j r x)) hm]
    simp [next, hl.1, FrontendPc.rank]
  | clearRes j =>
    obtain rfl : j = i := Option.some.inj hi
    have hp : (s.frontend j).pc = .clearRes := hl
    rw [handoffRank_owner (s := next s (.clearRes j)) hm]
    simp [next, hp, FrontendPc.rank]
  | give j =>
    obtain rfl : j = i := Option.some.inj hi
    have hp : (s.frontend j).pc = .give := hl
    simp [next, handoffRank, hp, FrontendPc.rank]
  | _ => cases hi

/-- **No step adds to a hand-off**, and those that help take something away.
The worker may leave its loop round between two requests, but only towards
`event_fire`. -/
theorem step_rank (hs : Serving s) (h : Sim s c) (hm : s.mutexFastcgi = some i)
    (hok : Running s l) (hl : Enabled s l) :
    handoffRank (next s l) ≤ handoffRank s ∧
      (Helps s l = true → handoffRank (next s l) < handoffRank s) := by
  have hborn : s.fastcgi.pc ≠ .unborn := by
    refine hs.born (i := i) fun hu => ?_
    have hcritical := h.critical_of_owner (h.mutex.symm.trans hm)
    rw [hu] at hcritical
    cases hcritical
  by_cases hw : l.ofFastcgi = true
  · obtain ⟨hmutex, hfrontend, hdone, hnone⟩ := next_of_ofFastcgi (s := s) hw
    rw [handoffRank_owner hm, handoffRank_owner (hmutex.trans hm), hfrontend]
    by_cases hwait : (s.frontend i).pc = .wait ∧ s.eventDone = 0
    · have hlt := fastcgi_rank_lt hs (h.fire_of_wait hm hwait.1 hwait.2) hborn hok hl hw hwait.2
      rw [if_pos hwait]
      simp only [hwait.1, true_and]
      exact ⟨by omega, fun _ => by omega⟩
    · have hstill : ¬((s.frontend i).pc = .wait ∧ (next s l).eventDone = 0) := fun hnow =>
        hwait ⟨hnow.1, by omega⟩
      rw [if_neg hwait, if_neg hstill]
      refine ⟨Nat.le_refl _, fun hh => ?_⟩
      simp [Helps, hm, hnone, hwait] at hh
  · rw [Bool.not_eq_true] at hw
    by_cases hi : l.frontend = some i
    · have hlt := owner_rank_lt h hm hok hl hi
      exact ⟨Nat.le_of_lt hlt, fun _ => hlt⟩
    · obtain ⟨hmutex, hdone, hfrontend, hfastcgi⟩ := next_of_other h hm hl hw hi
      have hsame : handoffRank (next s l) = handoffRank s := by
        refine handoffRank_congr hmutex (fun j hj => ?_) hdone hfastcgi
        obtain rfl := Option.some.inj (hm.symm.trans hj)
        exact hfrontend
      refine ⟨Nat.le_of_eq hsame, fun hh => ?_⟩
      simp [Helps, hm, hi, hw] at hh

omit [DecidableEq ι] in
/-- **Nobody waits for nothing**: the owner can go on, or the worker it waits
for. -/
theorem exists_helping [DecidableEq ι] (hs : Serving s) (h : Sim s c)
    (hm : s.mutexFastcgi = some i) : ∃ l, Enabled s l ∧ Running s l ∧ Helps s l = true := by
  have hcritical := h.critical_of_owner (h.mutex.symm.trans hm)
  have howner : ∀ l : Label ι ρ, l.frontend = some i → l.Reliable → Helps s l = true :=
    fun l hl hr => by simp [Helps, hm, hl, hr]
  cases hp : (s.frontend i).pc with
  | publish => exact ⟨.publish i _, ⟨hp, rfl⟩, by simp [Running], howner _ rfl trivial⟩
  | fire => exact ⟨.setFire i, hp, by simp [Running], howner _ rfl trivial⟩
  | readRes => exact ⟨.readRes i _ _, ⟨hp, rfl, rfl⟩, by simp [Running], howner _ rfl trivial⟩
  | clearRes => exact ⟨.clearRes i, hp, by simp [Running], howner _ rfl trivial⟩
  | give => exact ⟨.give i, hp, by simp [Running], howner _ rfl trivial⟩
  | wait =>
    by_cases hd : s.eventDone = 0
    · have hworker : ∀ l : Label ι ρ, l.ofFastcgi = true → l.Reliable → Helps s l = true :=
        fun l hl hr => by simp [Helps, hm, hl, hp, hd, hr]
      have hborn := hs.born (i := i) (by rw [hp]; simp)
      cases hw : s.fastcgi.pc with
      | unborn => exact absurd hw hborn
      | exit => exact absurd hw hs.alive.1
      | ended => exact absurd hw hs.alive.2
      | loop => exact ⟨.testBreak, hw, by simp [Running], hworker _ rfl trivial⟩
      | initializeCb => exact ⟨.initializeCb, hw, by simp [Running], hworker _ rfl trivial⟩
      | poll => exact ⟨.pollFastcgi, hw, by simp [Running], hworker _ rfl trivial⟩
      | waitFire =>
        have hfire := h.fire_of_wait hm hp hd (by rw [hw]; rfl)
        exact ⟨.fireTaken, ⟨hw, hfire⟩, by simp [Running], hworker _ rfl trivial⟩
      | readReq => exact ⟨.readReq, hw, by simp [Running], hworker _ rfl trivial⟩
      | call => exact ⟨.call _, ⟨hw, rfl⟩, by simp [Running], hworker _ rfl trivial⟩
      | process => exact ⟨.ret _ none, ⟨hw, rfl⟩, by simp [Running], hworker _ rfl trivial⟩
      | writeRes => exact ⟨.writeRes, hw, by simp [Running], hworker _ rfl trivial⟩
      | setDone => exact ⟨.setDone, hw, by simp [Running], hworker _ rfl trivial⟩
      | finializeCb => exact ⟨.finializeCb, hw, by simp [Running], hworker _ rfl trivial⟩
    · exact ⟨.doneTaken i, ⟨hp, Nat.pos_of_ne_zero hd⟩, by simp [Running], howner _ rfl trivial⟩
  | unborn | recv | take | answer | delete | close | ended =>
    rw [hp] at hcritical
    cases hcritical

end Rank

/-! ### Runs -/

section Runs

variable {s t : State ι ρ} {i : ι}

/-- What is known while `i` has the mutex, and just behind that. -/
structure Held (i : ι) (s : State ι ρ) : Prop where
  serving : Serving s
  sim : ∃ c, Sim s c
  owner : s.mutexFastcgi = some i ∨ s.mutexFastcgi = none ∧ (s.frontend i).pc = .answer

/-- **The hand-off of a frontend ends with its `http_mutex_give`**: the rank is
one that the rule of `Lib.Progress` asks for. -/
theorem handoff_ranking (i : ι) : (mpm ι ρ).Ranking (Held i) (fun s => s.mutexFastcgi ≠ some i)
    Running Helps handoffRank where
  keep s l hI hG hok hl := by
    obtain ⟨c, hsim⟩ := hI.sim
    have hm : s.mutexFastcgi = some i := not_not.1 hG
    refine ⟨step_serving hI.serving hl hok.2.1, ⟨_, (step_sim hsim hok.1 hl).2⟩, ?_⟩
    by_cases hw : l.ofFastcgi = true
    · exact .inl ((next_of_ofFastcgi hw).1.trans hm)
    · by_cases hi : l.frontend = some i
      · cases l with
        | give j =>
          obtain rfl : j = i := Option.some.inj hi
          exact .inr ⟨rfl, by simp [mpm, next, State.goto, State.setFrontend]⟩
        | take j => cases hm.symm.trans hl.2
        | accept conn => cases conn <;> exact .inl hm
        | recv j got => cases got <;> exact .inl hm
        | pollAccepter | testBreak | pollFastcgi => cases hi
        | _ => exact .inl hm
      · exact .inl ((next_of_other hsim hm hl (by simpa using hw) hi).1.trans hm)
  le s l hI hG hok hl := by
    obtain ⟨c, hsim⟩ := hI.sim
    exact (step_rank hI.serving hsim (not_not.1 hG) hok hl).1
  lt s l hI hG hok hl := by
    obtain ⟨c, hsim⟩ := hI.sim
    exact (step_rank hI.serving hsim (not_not.1 hG) hok hl).2
  enabled s hI hG := by
    obtain ⟨c, hsim⟩ := hI.sim
    exact exists_helping hI.serving hsim (not_not.1 hG)

/-- The worker serves in every run that does not stop it. -/
theorem run_serving {tr : List (Label ι ρ)} (h : (mpm ι ρ).Run (init ι ρ) tr s)
    (hb : .setBreakFastcgi ∉ tr) : Serving s := by
  refine Lib.Machine.run_induction (P := fun tr s => .setBreakFastcgi ∉ tr → Serving s)
    (fun _ => init_serving) (fun ls u l _ ih hl hnot => ?_) h hb
  rw [List.mem_append, not_or, List.mem_singleton] at hnot
  exact step_serving (ih hnot.1) hl fun he => hnot.2 he.symm

/-- **A hand-off takes at most seventeen steps** of its frontend and of the
worker, from every reachable state of a server that is not closed and under
every schedule: for every run in which `i` has the mutex throughout, whatever
the other threads do.  And as long as it has the mutex, one of the two can make
its step.  `process_cb` is one of the steps that are counted, so it is taken to
return (`Label.ret` is enabled as soon as it was called), and the worker runs,
as `http_begin_thread` has started it. -/
theorem handoff_bounded {tr tr' : List (Label ι ρ)} (h : (mpm ι ρ).Run (init ι ρ) tr s)
    (hr : ∀ j, .doneFail j ∉ tr) (hb : .setBreakFastcgi ∉ tr) (hm : s.mutexFastcgi = some i)
    (hrun : (mpm ι ρ).Run s tr' t) (hok : (mpm ι ρ).Along Running s tr')
    (hheld : (mpm ι ρ).Along (fun u _ => u.mutexFastcgi = some i) s tr') :
    (mpm ι ρ).countAlong Helps s tr' ≤ 17 ∧
      (t.mutexFastcgi = some i → ∃ l, Enabled t l ∧ Running t l ∧ Helps t l = true) := by
  obtain ⟨c, -, hsim⟩ := run_sim h hr
  have hshort : (mpm ι ρ).Along (fun u _ => ¬u.mutexFastcgi ≠ some i) s tr' :=
    Lib.Machine.along_mono (fun _ _ hu => not_not.2 hu) hheld
  have hs : Held i s := ⟨run_serving h hb, ⟨c, hsim⟩, .inl hm⟩
  constructor
  · have hcount := (handoff_ranking i).count_le hs hrun hok hshort
    have hle := handoffRank_le s
    omega
  · intro hmt
    have ht := (handoff_ranking i).keep_run hs hrun hok hshort
    obtain ⟨c', hsim'⟩ := ht.sim
    exact exists_helping ht.serving hsim' hmt

/-- Satisfiability: the request of `false`, from `http_mutex_take` to
`event_done`. -/
theorem handoff_bounded_twoFrontends :
    (mpm Bool ℕ).countAlong Helps ((mpm Bool ℕ).exec (init Bool ℕ) (twoFrontends.take 13))
        ((twoFrontends.drop 13).take 9) ≤ 17 ∧
      (((mpm Bool ℕ).exec (init Bool ℕ) (twoFrontends.take 22)).mutexFastcgi = some false →
        ∃ l, Enabled ((mpm Bool ℕ).exec (init Bool ℕ) (twoFrontends.take 22)) l ∧
          Running ((mpm Bool ℕ).exec (init Bool ℕ) (twoFrontends.take 22)) l ∧
          Helps ((mpm Bool ℕ).exec (init Bool ℕ) (twoFrontends.take 22)) l = true) :=
  handoff_bounded (Lib.Machine.run_iff_exec.2 ⟨by decide, rfl⟩) (by decide) (by decide) rfl
    (Lib.Machine.run_iff_exec.2 ⟨by decide, rfl⟩) (by decide) (by decide)

/-- The helpful steps are those of frontends and of the worker, and none is a
wait that fails. -/
theorem reliable_of_helps {l : Label ι ρ} (h : Helps s l = true) :
    l.Reliable ∧ (l.ofFastcgi = true ∨ ∃ j, l.frontend = some j) := by
  cases hm : s.mutexFastcgi with
  | none => simp [Helps, hm] at h
  | some i =>
    simp only [Helps, hm, Bool.and_eq_true, Bool.or_eq_true, decide_eq_true_eq] at h
    exact ⟨h.1, h.2.elim (fun hi => .inr ⟨i, hi⟩) fun hw => .inl hw.1⟩

/-- So are all steps of a run of helpful ones. -/
theorem forall_of_helps {tr : List (Label ι ρ)}
    (h : (mpm ι ρ).Along (fun u l => Helps u l = true) s tr) :
    ∀ l ∈ tr, l.Reliable ∧ (l.ofFastcgi = true ∨ ∃ j, l.frontend = some j) := by
  intro l hl
  exact Lib.Machine.forall_of_along
    (Q := fun l => l.Reliable ∧ (l.ofFastcgi = true ∨ ∃ j, l.frontend = some j))
    (fun _ _ => reliable_of_helps) h l hl

/-- They leave a frontend alone that does not have the mutex.  A helpful step is
one of the owner or one of the worker. -/
theorem helps_frontend_ne {l : Label ι ρ} {j : ι} (h : Helps s l = true)
    (hm : s.mutexFastcgi = some j) (hne : i ≠ j) : l.frontend ≠ some i := by
  simp only [Helps, hm, Bool.and_eq_true, Bool.or_eq_true, decide_eq_true_eq] at h
  rcases h.2 with hi | hw
  · rw [hi]
    exact fun he => hne (Option.some.inj he).symm
  · rw [(next_of_ofFastcgi (s := s) hw.1).2.2.2]
    simp

/-- The continuation of a run in which `i` gets its answer. -/
def Answers (i : ι) (s : State ι ρ) (tr : List (Label ι ρ)) (t : State ι ρ) : Prop :=
  (mpm ι ρ).Run s tr t ∧ (∀ l ∈ tr, l.Reliable ∧ (l.ofFastcgi = true ∨ ∃ j, l.frontend = some j)) ∧
    (t.frontend i).pc = .answer

/-- Who has the mutex gets its answer: some run of helpful steps ends the
hand-off, as there always is such a step and each makes the rank smaller. -/
theorem Held.answers (h : Held i s) : ∃ tr t, Answers i s tr t ∧ tr.length ≤ 17 := by
  have hle := handoffRank_le s
  obtain ⟨tr, t, hrun, -, hhelps, hlen, hheld, hgoal⟩ := (handoff_ranking i).exists_run h
  refine ⟨tr, t, ⟨hrun, forall_of_helps hhelps, ?_⟩, by omega⟩
  exact (hheld.owner.resolve_left hgoal).2

/-- Who is to take it gets it when it is free. -/
theorem Held.of_take {c : Slot ι (Option ℕ) (Option ρ)} (hs : Serving s) (hsim : Sim s c)
    (hp : (s.frontend i).pc = .take) (hm : s.mutexFastcgi = none) : Held i (next s (.take i)) where
  serving := step_serving hs (l := .take i) ⟨hp, hm⟩ (by simp)
  sim := ⟨_, (step_sim (l := .take i) hsim (by simp) ⟨hp, hm⟩).2⟩
  owner := .inl rfl

/-- **Every request gets its turn and its answer**: from every reachable state
of a server that is not closed, however its threads stand, a frontend that is
about to take the mutex, or has it, gets its answer by at most thirty-five steps
of frontends and of the worker, none of which fails.  It may first have to let
another frontend finish, hence twice the steps of a hand-off.  As in
`handoff_bounded` the callbacks return and the threads were started; without
that no number of steps is enough. -/
theorem handoff_progress {tr : List (Label ι ρ)} (h : (mpm ι ρ).Run (init ι ρ) tr s)
    (hr : ∀ j, .doneFail j ∉ tr) (hb : .setBreakFastcgi ∉ tr)
    (hi : (s.frontend i).pc = .take ∨ (s.frontend i).pc.critical = true) :
    ∃ tr' t, Answers i s tr' t ∧ tr'.length ≤ 35 := by
  obtain ⟨c, -, hsim⟩ := run_sim h hr
  have hs := run_serving h hb
  rcases hi with hp | hcritical
  · -- first whoever has the mutex gives it back
    have hfree : ∃ tr₁ u c, (mpm ι ρ).Run s tr₁ u ∧ tr₁.length ≤ 17 ∧
        (∀ l ∈ tr₁, l.Reliable ∧ (l.ofFastcgi = true ∨ ∃ j, l.frontend = some j)) ∧
        Serving u ∧ Sim u c ∧ (u.frontend i).pc = .take ∧ u.mutexFastcgi = none := by
      cases hm : s.mutexFastcgi with
      | none => exact ⟨[], s, c, rfl, by simp, by simp, hs, hsim, hp, hm⟩
      | some j =>
        have hcritical := hsim.critical_of_owner (hsim.mutex.symm.trans hm)
        have hne : i ≠ j := by
          rintro rfl
          rw [hp] at hcritical
          cases hcritical
        have hle := handoffRank_le s
        obtain ⟨tr₁, u, hrun, -, hhelps, hlen, hheld, hgoal, hp'⟩ :=
          (handoff_ranking j).exists_run_keeping (J := fun u => (u.frontend i).pc = .take)
            (fun u l _ hG hu _ hh => by
              rw [← hu]
              exact congrArg Frontend.pc
                (next_frontend_of_ne (helps_frontend_ne hh (not_not.1 hG) hne)))
            ⟨hs, ⟨c, hsim⟩, .inl hm⟩ hp
        obtain ⟨c', hsim'⟩ := hheld.sim
        exact ⟨tr₁, u, c', hrun, by omega, forall_of_helps hhelps, hheld.serving, hsim', hp',
          (hheld.owner.resolve_left hgoal).1⟩
    obtain ⟨tr₁, u, c', hrun₁, hlen₁, hall₁, hs', hsim', hp', hm⟩ := hfree
    obtain ⟨tr₂, t, ⟨hrun₂, hall₂, hanswer⟩, hlen₂⟩ := (Held.of_take hs' hsim' hp' hm).answers
    refine ⟨tr₁ ++ .take i :: tr₂, t, ⟨Lib.Machine.run_append.2 ⟨u, hrun₁, ⟨hp', hm⟩, hrun₂⟩, ?_,
      hanswer⟩, ?_⟩
    · rw [List.forall_mem_append, List.forall_mem_cons]
      exact ⟨hall₁, ⟨trivial, .inr ⟨i, rfl⟩⟩, hall₂⟩
    · rw [List.length_append, List.length_cons]
      omega
  · have hm := hsim.mutex.trans (hsim.critical i hcritical)
    obtain ⟨tr', t, hanswers, hlen⟩ :=
      Held.answers (i := i) (s := s) ⟨hs, ⟨c, hsim⟩, .inl hm⟩
    exact ⟨tr', t, hanswers, by omega⟩

/-- Satisfiability: `true` is to take the mutex that `false` has. -/
theorem handoff_progress_twoFrontends :
    ∃ tr' t, Answers true ((mpm Bool ℕ).exec (init Bool ℕ) (twoFrontends.take 13)) tr' t ∧
      tr'.length ≤ 35 :=
  handoff_progress (Lib.Machine.run_iff_exec.2 ⟨by decide, rfl⟩) (by decide) (by decide)
    (.inl rfl)

end Runs

/-! ### Once the worker has ended -/

/-- The owner has not been answered, and needs the worker for it. -/
def FrontendPc.unserved : FrontendPc → Bool
  | .publish | .fire | .wait => true
  | _ => false

section Stuck

variable {s t : State ι ρ} {i : ι} {l : Label ι ρ}

/-- `i` has the mutex and waits, or will wait, for a worker that is gone. -/
structure Stuck (i : ι) (s : State ι ρ) : Prop where
  ended : s.fastcgi.pc = .ended
  done : s.eventDone = 0
  pc : (s.frontend i).pc.unserved = true
  owner : s.mutexFastcgi = some i
  sim : ∃ c, Sim s c

/-- A worker that has ended makes no step.  There is none in its body that
starts behind the end. -/
theorem not_ofFastcgi_of_ended (hended : s.fastcgi.pc = .ended) (hl : Enabled s l) :
    l.ofFastcgi = false := by
  rw [← Bool.not_eq_true]
  intro hw
  have hstep := fastcgi_step hl hw
  rw [hended] at hstep
  cases hstep

/-- **Nothing helps the owner then**, neither its own steps nor those of others:
only the worker sets `event_done`. -/
theorem step_stuck (h : Stuck i s) (hl : Enabled s l) (hr : ∀ j, l ≠ .doneFail j) :
    Stuck i (next s l) := by
  obtain ⟨c, hsim⟩ := h.sim
  have hw := not_ofFastcgi_of_ended h.ended hl
  have hsim' : ∃ c, Sim (next s l) c := ⟨_, (step_sim hsim hr hl).2⟩
  have hfastcgi := next_fastcgi_of_not (s := s) hw
  by_cases hi : l.frontend = some i
  · have hpc := h.pc
    have hstep := frontend_step hl hi
    generalize hp : ((next s l).frontend i).pc = pc at hstep
    generalize (s.frontend i).pc = pc at hpc hstep
    cases hstep with
    | publish | setFire => exact ⟨h.ended, h.done, by rw [hp]; rfl, h.owner, hsim'⟩
    | doneTaken => exact absurd hl.2 (by rw [h.done]; exact Nat.lt_irrefl 0)
    | doneFail => exact absurd rfl (hr i)
    | _ => cases hpc
  · obtain ⟨hmutex, hdone, hfrontend, -⟩ := next_of_other hsim h.owner hl hw hi
    exact ⟨by rw [hfastcgi]; exact h.ended, hdone.trans h.done, by rw [hfrontend]; exact h.pc,
      hmutex.trans h.owner, hsim'⟩

/-- It is stuck in every run from there on, step by step. -/
theorem run_stuck {tr : List (Label ι ρ)} (h : Stuck i s) (hrun : (mpm ι ρ).Run s tr t)
    (hr : ∀ j, .doneFail j ∉ tr) : Stuck i t := by
  refine Lib.Machine.run_induction (P := fun tr t => (∀ j, .doneFail j ∉ tr) → Stuck i t)
    (fun _ => h) (fun ls u l _ ih hl hnot => ?_) hrun hr
  refine step_stuck (ih fun j hj => hnot j (List.mem_append_left _ hj)) hl fun j hj => ?_
  exact hnot j (hj ▸ List.mem_append_right _ (List.mem_singleton_self _))

/-- **A frontend that has the mutex when the worker has ended never gives it
back**, unless `event_done` was set for it before: no continuation of any
reachable state, in which no wait fails, ends its critical section. -/
theorem handoff_stuck {tr : List (Label ι ρ)} (h : (mpm ι ρ).Run (init ι ρ) tr s)
    (hr : ∀ j, .doneFail j ∉ tr) (hended : s.fastcgi.pc = .ended) (hm : s.mutexFastcgi = some i) :
    (∃ tr' t, (mpm ι ρ).Run s tr' t ∧ (∀ j, .doneFail j ∉ tr') ∧ t.mutexFastcgi ≠ some i) ↔
      0 < s.eventDone ∨ (s.frontend i).pc.unserved = false := by
  obtain ⟨c, -, hsim⟩ := run_sim h hr
  have hcritical := hsim.critical_of_owner (hsim.mutex.symm.trans hm)
  constructor
  · rintro ⟨tr', t, hrun, hr', hgone⟩
    by_contra hnot
    rw [not_or, Bool.not_eq_false, Nat.not_lt, Nat.le_zero] at hnot
    exact hgone (run_stuck ⟨hended, hnot.1, hnot.2, hm, c, hsim⟩ hrun hr').owner
  · intro hfree
    -- what is left of the critical section needs no other thread
    have hgive : ∀ u : State ι ρ, (u.frontend i).pc = .give →
        (mpm ι ρ).Run u [.give i] (next u (.give i)) ∧ (next u (.give i)).mutexFastcgi ≠ some i :=
      fun u hu => ⟨⟨hu, rfl⟩, by simp [next]⟩
    have hclear : ∀ u : State ι ρ, (u.frontend i).pc = .clearRes →
        ∃ t, (mpm ι ρ).Run u [.clearRes i, .give i] t ∧ t.mutexFastcgi ≠ some i := by
      intro u hu
      have hrest := hgive (next u (.clearRes i)) (by simp [next])
      exact ⟨_, ⟨hu, hrest.1⟩, hrest.2⟩
    have hread : ∀ u : State ι ρ, (u.frontend i).pc = .readRes →
        ∃ tr t, (mpm ι ρ).Run u tr t ∧ (∀ j, .doneFail j ∉ tr) ∧ t.mutexFastcgi ≠ some i := by
      intro u hu
      obtain ⟨t, hrun, hgone⟩ :=
        hclear (next u (.readRes i (u.frontend i).req u.res)) (by simp [next])
      exact ⟨.readRes i _ _ :: [.clearRes i, .give i], t, ⟨⟨hu, rfl, rfl⟩, hrun⟩, by simp, hgone⟩
    cases hp : (s.frontend i).pc with
    | give => exact ⟨_, _, (hgive s hp).1, by simp, (hgive s hp).2⟩
    | clearRes =>
      obtain ⟨t, hrun, hgone⟩ := hclear s hp
      exact ⟨_, t, hrun, by simp, hgone⟩
    | readRes => exact hread s hp
    | wait =>
      have hdone := hfree.resolve_right (by simp [hp, FrontendPc.unserved])
      obtain ⟨tr', t, hrun, hr', hgone⟩ := hread (next s (.doneTaken i)) (by simp [next])
      exact ⟨.doneTaken i :: tr', t, ⟨⟨hp, hdone⟩, hrun⟩, by simpa using hr', hgone⟩
    | publish =>
      have hdone := hfree.resolve_right (by simp [hp, FrontendPc.unserved])
      have hquiet := (hsim.publishing hp).2.1.2.1
      omega
    | fire =>
      have hdone := hfree.resolve_right (by simp [hp, FrontendPc.unserved])
      have hquiet := (hsim.firing hp).2.2.1.2.1
      omega
    | unborn | recv | take | answer | delete | close | ended =>
      rw [hp] at hcritical
      cases hcritical

/-- A request is published after the worker was stopped. -/
def stoppedFirst : List (Label Bool ℕ) :=
  [.start, .beginFastcgi, .pollAccepter, .accept (some true), .recv true true,
   .setBreakAccepter, .setBreakFastcgi, .testBreak, .fastcgiEnd, .take true,
   .publish true (some 0), .setFire true]

/-- Satisfiability: its frontend waits for ever. -/
theorem handoff_stuck_stoppedFirst :
    (∃ tr' t, (mpm Bool ℕ).Run ((mpm Bool ℕ).exec (init Bool ℕ) stoppedFirst) tr' t ∧
        (∀ j, .doneFail j ∉ tr') ∧ t.mutexFastcgi ≠ some true) ↔
      0 < ((mpm Bool ℕ).exec (init Bool ℕ) stoppedFirst).eventDone ∨
        (((mpm Bool ℕ).exec (init Bool ℕ) stoppedFirst).frontend true).pc.unserved = false :=
  handoff_stuck (Lib.Machine.run_iff_exec.2 ⟨by decide, rfl⟩) (by decide) rfl rfl

end Stuck

end Mpm
end Dukserver
