/-
# The hand-off delivers each request once and each response to its frontend

`libhttpd/http_mpm.c`, `_worker_frontend` (lines 162-177) against
`_worker_fastcgi` (lines 115-126).  One mutex, two semaphores and two slots carry
a request to the worker and its response back.  As long as `http_event_wait`
returns only on success, the threads of `mpm` refine `Lib.Slot.rendezvous`
(`step_sim`): whoever owns `mutex_fastcgi` owns the slots, at most one of the two
events is pending, and the worker is on a request only while the owner waits for
it.  Timeouts of `http_event_waittimeout`, restarts of the worker, a failed
`http_mutex_take` and all steps of other threads are steps that do not touch the
slot.  The request of each frontend is its own and is published once (`Fresh`), so
the trace properties of the rendezvous carry over (`handoff_correct`).
-/

import Dukserver.Lib.Rendezvous
import Dukserver.Mpm.Threads

namespace Dukserver
namespace Mpm

open Lib (Slot)

variable {ι ρ : Type}

/-- Steps other than the failures of `http_mutex_take` and `http_event_wait` in
a frontend. -/
def Label.Reliable : Label ι ρ → Prop
  | .takeFail _ => False
  | .doneFail _ => False
  | _ => True

instance (l : Label ι ρ) : Decidable l.Reliable :=
  match l with
  | .takeFail _ | .doneFail _ => isFalse id
  | .start | .setBreakAccepter | .setBreakFastcgi | .waitAccepterExit | .accepterExitFail
  | .waitFastcgiExit | .fastcgiExitFail | .deleteBreaks | .deleteMutex | .deleteFire | .deleteDone
  | .beginFastcgi | .pollAccepter | .accept _ | .accepterEnd
  | .testBreak | .initializeCb | .pollFastcgi | .fireTimeout | .fireTaken | .readReq | .call _
  | .ret .. | .writeRes | .setDone | .finializeCb | .fastcgiEnd
  | .recv .. | .take _ | .publish .. | .setFire _ | .doneTaken _ | .readRes .. | .clearRes _
  | .give _ | .answer _ | .delete .. | .close _ => isTrue trivial

/-- Between `http_mutex_take` and `http_mutex_give`. -/
def FrontendPc.critical : FrontendPc → Bool
  | .publish | .fire | .wait | .readRes | .clearRes | .give => true
  | _ => false

/-- Between taking `event_fire` and setting `event_done`. -/
def FastcgiPc.busy : FastcgiPc → Bool
  | .readReq | .call | .process | .writeRes | .setDone => true
  | _ => false

/-- What a step of the server does to the slot. -/
def slotLabel : Label ι ρ → Slot.Label ι (Option ℕ) (Option ρ)
  | .take i => .lock i
  | .publish i r => .publish i r
  | .call r => .call r
  | .ret r x => .ret r x
  | .readRes i r x => .read i r x
  | .give i => .unlock i
  | _ => .tau

/-- No event is pending and the worker is not on a request. -/
def State.Quiet (s : State ι ρ) : Prop :=
  s.eventFire = 0 ∧ s.eventDone = 0 ∧ s.fastcgi.pc.busy = false

/-- What the events, the slots, the owner and the worker are, for each state of
the abstract slot. -/
def Shape (s : State ι ρ) : Slot ι (Option ℕ) (Option ρ) → Prop
  | .free => s.Quiet ∧ s.res = none
  | .locked i => (s.frontend i).pc = .publish ∧ s.Quiet ∧ s.res = none
  | .published i r =>
    (s.frontend i).req = r ∧ s.req = r ∧ s.res = none ∧ s.eventDone = 0 ∧
      ((s.frontend i).pc = .fire ∧ s.eventFire = 0 ∧ s.fastcgi.pc.busy = false ∨
       (s.frontend i).pc = .wait ∧ s.eventFire = 1 ∧ s.fastcgi.pc.busy = false ∨
       (s.frontend i).pc = .wait ∧ s.eventFire = 0 ∧ s.fastcgi.pc = .readReq ∨
       (s.frontend i).pc = .wait ∧ s.eventFire = 0 ∧ s.fastcgi.pc = .call ∧ s.fastcgi.req = r)
  | .running i r =>
    (s.frontend i).req = r ∧ (s.frontend i).pc = .wait ∧ s.eventFire = 0 ∧ s.eventDone = 0 ∧
      s.fastcgi.pc = .process ∧ s.fastcgi.req = r
  | .returned i r x =>
    (s.frontend i).req = r ∧ s.eventFire = 0 ∧
      ((s.frontend i).pc = .wait ∧ s.eventDone = 0 ∧ s.fastcgi.pc = .writeRes ∧
          s.fastcgi.res = x ∨
       (s.frontend i).pc = .wait ∧ s.eventDone = 0 ∧ s.fastcgi.pc = .setDone ∧ s.res = x ∨
       (s.frontend i).pc = .wait ∧ s.eventDone = 1 ∧ s.fastcgi.pc.busy = false ∧ s.res = x ∨
       (s.frontend i).pc = .readRes ∧ s.eventDone = 0 ∧ s.fastcgi.pc.busy = false ∧ s.res = x)
  | .answered i =>
    s.Quiet ∧ ((s.frontend i).pc = .clearRes ∨ (s.frontend i).pc = .give ∧ s.res = none)

/-- The server in state `s` is an implementation of the slot in state `c`. -/
structure Sim (s : State ι ρ) (c : Slot ι (Option ℕ) (Option ρ)) : Prop where
  mutex : s.mutexFastcgi = c.owner
  critical : ∀ i, (s.frontend i).pc.critical = true → c.owner = some i
  shape : Shape s c

/-- The owner of the slot is between `http_mutex_take` and `http_mutex_give`, as
the slot is owned by whoever has the mutex. -/
theorem Sim.critical_of_owner {s : State ι ρ} {c : Slot ι (Option ℕ) (Option ρ)} (h : Sim s c)
    {i : ι} (hi : c.owner = some i) : (s.frontend i).pc.critical = true := by
  have hs := h.shape
  cases c with
  | free => cases hi
  | _ =>
    obtain rfl := Option.some.inj hi
    simp only [Shape] at hs
    grind [FrontendPc.critical]

/-- Only the mutex, the slots, their events, the worker and the frontends
matter, so every step of main and of the accepter leaves the relation as it is. -/
theorem Sim.congr {s t : State ι ρ} {c : Slot ι (Option ℕ) (Option ρ)} (h : Sim s c)
    (hm : t.mutexFastcgi = s.mutexFastcgi) (hf : t.eventFire = s.eventFire)
    (hd : t.eventDone = s.eventDone) (hq : t.req = s.req) (hr : t.res = s.res)
    (hw : t.fastcgi = s.fastcgi) (hi : t.frontend = s.frontend) : Sim t c where
  mutex := hm.trans h.mutex
  critical := hi ▸ h.critical
  shape := by
    have hs := h.shape
    cases c <;> simpa only [Shape, State.Quiet, hf, hd, hq, hr, hw, hi] using hs

variable [DecidableEq ι]

/-- A frontend outside the critical section may do anything that leaves it
there. -/
theorem Sim.setFrontend {s : State ι ρ} {c : Slot ι (Option ℕ) (Option ρ)} (h : Sim s c) {i : ι}
    {f : Frontend ρ} (hi : (s.frontend i).pc.critical = false) (hf : f.pc.critical = false) :
    Sim (s.setFrontend i f) c := by
  have hne : ∀ j, c.owner = some j → Function.update s.frontend i f j = s.frontend j := by
    rintro j hj
    refine Function.update_of_ne (fun hji => ?_) _ _
    rw [hji] at hj
    exact absurd (h.critical_of_owner hj) (by rw [hi]; exact Bool.false_ne_true)
  refine ⟨h.mutex, fun j hj => ?_, ?_⟩
  · by_cases hji : j = i
    · subst hji
      simp [State.setFrontend, hf] at hj
    · exact h.critical j (by simpa [State.setFrontend, hji] using hj)
  · have hs := h.shape
    cases c with
    | free => exact hs
    | _ => simpa only [Shape, State.setFrontend, State.Quiet, hne _ rfl] using hs

omit [DecidableEq ι] in
/-- The worker may do anything that takes and sets no event. -/
theorem Sim.fastcgi {s : State ι ρ} {c : Slot ι (Option ℕ) (Option ρ)} (h : Sim s c)
    {w : Fastcgi ρ} (hs : s.fastcgi.pc.busy = false) (hw : w.pc.busy = false) :
    Sim { s with fastcgi := w } c := by
  refine ⟨h.mutex, h.critical, ?_⟩
  have hs := h.shape
  cases c <;> simp only [Shape, State.Quiet] at hs ⊢ <;> grind [FastcgiPc.busy]

section Inversion

/-! ### Where the slot is, by the program points -/

variable {s : State ι ρ} {c : Slot ι (Option ℕ) (Option ρ)}

omit [DecidableEq ι] in
/-- `event_fire` is set only while the owner waits with its request published. -/
theorem Sim.fired (h : Sim s c) (hf : 0 < s.eventFire) :
    ∃ i, c = .published i s.req ∧ (s.frontend i).req = s.req ∧ (s.frontend i).pc = .wait ∧
      s.eventFire = 1 ∧ s.eventDone = 0 ∧ s.res = none := by
  have hs := h.shape
  cases c <;> simp only [Shape, State.Quiet] at hs <;> grind

omit [DecidableEq ι] in
/-- From `event_fire` to `process_cb` the worker is on the published request. -/
theorem Sim.loading (h : Sim s c) (hw : s.fastcgi.pc = .readReq ∨ s.fastcgi.pc = .call) :
    ∃ i, c = .published i s.req ∧ (s.frontend i).req = s.req ∧ (s.frontend i).pc = .wait ∧
      s.eventFire = 0 ∧ s.eventDone = 0 ∧ s.res = none ∧
      (s.fastcgi.pc = .call → s.fastcgi.req = s.req) := by
  have hs := h.shape
  have hb : s.fastcgi.pc.busy = true := by rcases hw with hw | hw <;> rw [hw] <;> rfl
  cases c <;> simp only [Shape, State.Quiet] at hs <;> grind

omit [DecidableEq ι] in
/-- While `process_cb` runs, the owner waits for its request. -/
theorem Sim.processing (h : Sim s c) (hw : s.fastcgi.pc = .process) :
    ∃ i, c = .running i s.fastcgi.req ∧ (s.frontend i).req = s.fastcgi.req ∧
      (s.frontend i).pc = .wait ∧ s.eventFire = 0 ∧ s.eventDone = 0 := by
  have hs := h.shape
  have hb : s.fastcgi.pc.busy = true := by rw [hw]; rfl
  cases c <;> simp only [Shape, State.Quiet] at hs <;> grind

omit [DecidableEq ι] in
/-- From `process_cb` to `event_done` the owner waits for what was returned. -/
theorem Sim.returning (h : Sim s c) (hw : s.fastcgi.pc = .writeRes ∨ s.fastcgi.pc = .setDone) :
    ∃ i, c = .returned i (s.frontend i).req
        (if s.fastcgi.pc = .writeRes then s.fastcgi.res else s.res) ∧
      (s.frontend i).pc = .wait ∧ s.eventFire = 0 ∧ s.eventDone = 0 := by
  have hs := h.shape
  have hb : s.fastcgi.pc.busy = true := by rcases hw with hw | hw <;> rw [hw] <;> rfl
  cases c <;> simp only [Shape, State.Quiet] at hs <;> grind

omit [DecidableEq ι] in
/-- `event_done` is set only while the owner waits with the response in `*res`. -/
theorem Sim.finished (h : Sim s c) (hd : 0 < s.eventDone) :
    ∃ i, c = .returned i (s.frontend i).req s.res ∧ s.eventFire = 0 ∧ s.eventDone = 1 ∧
      s.fastcgi.pc.busy = false := by
  have hs := h.shape
  cases c <;> simp only [Shape, State.Quiet] at hs <;> grind

omit [DecidableEq ι] in
/-- A frontend in the critical section is the owner. -/
theorem Sim.owner_eq (h : Sim s c) {i : ι} (hi : (s.frontend i).pc.critical = true) :
    ∀ j, c.owner = some j → j = i := fun _ hj =>
  Option.some.inj (hj.symm.trans (h.critical i hi))

omit [DecidableEq ι] in
/-- Before publishing, the slot is locked and nothing is pending. -/
theorem Sim.publishing (h : Sim s c) {i : ι} (hi : (s.frontend i).pc = .publish) :
    c = .locked i ∧ s.Quiet ∧ s.res = none := by
  have hs := h.shape
  have ho := h.critical i (by rw [hi]; rfl)
  cases c <;> simp only [Slot.owner] at ho <;> simp only [Shape, State.Quiet] at hs ⊢ <;> grind

omit [DecidableEq ι] in
/-- Before `event_fire` is set, the request is published and nothing is pending. -/
theorem Sim.firing (h : Sim s c) {i : ι} (hi : (s.frontend i).pc = .fire) :
    c = .published i s.req ∧ (s.frontend i).req = s.req ∧ s.Quiet ∧ s.res = none := by
  have hs := h.shape
  have ho := h.critical i (by rw [hi]; rfl)
  cases c <;> simp only [Slot.owner] at ho <;> simp only [Shape, State.Quiet] at hs ⊢ <;> grind

omit [DecidableEq ι] in
/-- After `event_done`, `*res` is the answer to the frontend's own request. -/
theorem Sim.reading (h : Sim s c) {i : ι} (hi : (s.frontend i).pc = .readRes) :
    c = .returned i (s.frontend i).req s.res ∧ s.Quiet := by
  have hs := h.shape
  have ho := h.critical i (by rw [hi]; rfl)
  cases c <;> simp only [Slot.owner] at ho <;> simp only [Shape, State.Quiet] at hs ⊢ <;> grind

omit [DecidableEq ι] in
/-- After the answer is read, nothing is pending. -/
theorem Sim.leaving (h : Sim s c) {i : ι}
    (hi : (s.frontend i).pc = .clearRes ∨ (s.frontend i).pc = .give) :
    c = .answered i ∧ s.Quiet ∧ ((s.frontend i).pc = .give → s.res = none) := by
  have hs := h.shape
  have ho := h.critical i (by rcases hi with hi | hi <;> rw [hi] <;> rfl)
  cases c <;> simp only [Slot.owner] at ho <;> simp only [Shape, State.Quiet] at hs ⊢ <;> grind

end Inversion

/-- A frontend that owns the slot, or is about to, stays its only owner.  The
mutex has let one in, and the update is of that one. -/
theorem Sim.critical_update {s : State ι ρ} {c : Slot ι (Option ℕ) (Option ρ)} (h : Sim s c)
    {i : ι} (hi : ∀ j, c.owner = some j → j = i) {f : Frontend ρ} {o : Option ι}
    (hf : f.pc.critical = true → o = some i) :
    ∀ j, (Function.update s.frontend i f j).pc.critical = true → o = some j := by
  intro j hj
  by_cases hji : j = i
  · subst hji
    exact hf (by simpa using hj)
  · rw [Function.update_of_ne hji] at hj
    exact absurd (hi j (h.critical j hj)) hji

/-- A step of the owner that does not give the slot up leaves it the owner. -/
theorem Sim.owner_update {s : State ι ρ} {c : Slot ι (Option ℕ) (Option ρ)} (h : Sim s c)
    {i : ι} (hi : c.owner = some i) (f : Frontend ρ) :
    ∀ j, (Function.update s.frontend i f j).pc.critical = true → some i = some j :=
  h.critical_update (fun _ hj => Option.some.inj (hj.symm.trans hi)) fun _ => rfl

/-- **Each step of a thread is a step of the slot**, or does not touch it.  The
phase of the slot says what is pending, so for each label there is one step that
it can be. -/
theorem step_sim {s : State ι ρ} {c : Slot ι (Option ℕ) (Option ρ)} {l : Label ι ρ}
    (h : Sim s c) (hr : ∀ i, l ≠ .doneFail i) (hl : Enabled s l) :
    (Slot.rendezvous ι (Option ℕ) (Option ρ)).Enabled c (slotLabel l) ∧
      Sim (next s l) ((Slot.rendezvous ι (Option ℕ) (Option ρ)).next c (slotLabel l)) := by
  cases l with
  | start | setBreakAccepter | setBreakFastcgi | waitAccepterExit | accepterExitFail
  | waitFastcgiExit | fastcgiExitFail | deleteBreaks | deleteMutex | deleteFire | deleteDone
  | accepterEnd =>
    exact ⟨trivial, h.congr rfl rfl rfl rfl rfl rfl rfl⟩
  | beginFastcgi =>
    exact ⟨trivial, (h.fastcgi (by rw [hl.2]; rfl) rfl).congr rfl rfl rfl rfl rfl rfl rfl⟩
  | pollAccepter =>
    refine ⟨trivial, ?_⟩
    simp only [next]
    split <;> exact h.congr rfl rfl rfl rfl rfl rfl rfl
  | accept conn =>
    refine ⟨trivial, ?_⟩
    cases conn with
    | none => exact h.congr rfl rfl rfl rfl rfl rfl rfl
    | some i =>
      exact (h.setFrontend (by rw [hl.2]; rfl) rfl).congr rfl rfl rfl rfl rfl rfl rfl
  | testBreak | pollFastcgi =>
    have hb : s.fastcgi.pc.busy = false := by rw [hl]; rfl
    refine ⟨trivial, ?_⟩
    simp only [next]
    split
    · exact h.fastcgi hb rfl
    · split
      · exact (h.fastcgi hb rfl).congr rfl rfl rfl rfl rfl rfl rfl
      · exact h.fastcgi hb rfl
  | initializeCb => exact ⟨trivial, h.fastcgi (by rw [hl]; rfl) rfl⟩
  | fireTimeout => exact ⟨trivial, h.fastcgi (by rw [hl]; rfl) rfl⟩
  | finializeCb => exact ⟨trivial, h.fastcgi (by rw [hl]; rfl) rfl⟩
  | fastcgiEnd =>
    exact ⟨trivial, (h.fastcgi (by rw [hl]; rfl) rfl).congr rfl rfl rfl rfl rfl rfl rfl⟩
  | fireTaken =>
    obtain ⟨i, rfl, hq, hp, hf, hd, hres⟩ := h.fired hl.2
    exact ⟨trivial, h.mutex, h.critical, hq, rfl, hres, hd,
      .inr (.inr (.inl ⟨hp, by simp [next, State.fastcgiGoto, hf], rfl⟩))⟩
  | readReq =>
    obtain ⟨i, rfl, hq, hp, hf, hd, hres, -⟩ := h.loading (.inl hl)
    exact ⟨trivial, h.mutex, h.critical, hq, rfl, hres, hd, .inr (.inr (.inr ⟨hp, hf, rfl, rfl⟩))⟩
  | call r =>
    obtain ⟨hw, rfl⟩ := hl
    obtain ⟨i, rfl, hq, hp, hf, hd, -, hwq⟩ := h.loading (.inr hw)
    rw [hwq hw]
    exact ⟨⟨i, rfl⟩, h.mutex, h.critical, hq, hp, hf, hd, rfl, hwq hw⟩
  | ret r x =>
    obtain ⟨hw, rfl⟩ := hl
    obtain ⟨i, rfl, hq, hp, hf, hd⟩ := h.processing hw
    exact ⟨⟨i, rfl⟩, h.mutex, h.critical, hq, hf, .inl ⟨hp, hd, rfl, rfl⟩⟩
  | writeRes =>
    obtain ⟨i, rfl, hp, hf, hd⟩ := h.returning (.inl hl)
    exact ⟨trivial, h.mutex, h.critical, rfl, hf, .inr (.inl ⟨hp, hd, rfl, (if_pos hl).symm⟩)⟩
  | setDone =>
    obtain ⟨i, rfl, hp, hf, hd⟩ := h.returning (.inr hl)
    have hw : s.fastcgi.pc = .setDone := hl
    exact ⟨trivial, h.mutex, h.critical, rfl, hf,
      .inr (.inr (.inl ⟨hp, by simp [next, hd], rfl, by rw [hw]; rfl⟩))⟩
  | recv i got =>
    refine ⟨trivial, ?_⟩
    have hp : (s.frontend i).pc.critical = false := by rw [show (s.frontend i).pc = _ from hl]; rfl
    cases got with
    | true => exact (h.setFrontend hp rfl).congr rfl rfl rfl rfl rfl rfl rfl
    | false => exact h.setFrontend hp rfl
  | take i =>
    obtain ⟨hp, hn⟩ := hl
    have hfree : c = .free := by
      have := h.mutex.symm.trans hn
      cases c <;> simp [Slot.owner] at this ⊢
    subst hfree
    refine ⟨rfl, rfl, h.critical_update (fun _ hj => by cases hj) fun _ => rfl, ?_, h.shape⟩
    simp [next, State.goto, State.setFrontend]
  | takeFail i =>
    exact ⟨trivial, h.setFrontend (by rw [show (s.frontend i).pc = _ from hl]; rfl) rfl⟩
  | publish i r =>
    obtain ⟨hp, rfl⟩ := hl
    obtain ⟨rfl, ⟨hf, hd, hb⟩, hres⟩ := h.publishing hp
    refine ⟨rfl, h.mutex, h.owner_update rfl _, ?_, rfl, hres, hd, .inl ⟨?_, hf, hb⟩⟩
    all_goals simp [next, State.goto, State.setFrontend]
  | setFire i =>
    obtain ⟨rfl, hq, ⟨hf, hd, hb⟩, hres⟩ := h.firing hl
    refine ⟨trivial, h.mutex, h.owner_update rfl _, ?_, rfl, hres, hd,
      .inr (.inl ⟨?_, ?_, hb⟩)⟩
    all_goals simp [next, State.goto, State.setFrontend, hf, hq]
  | doneTaken i =>
    obtain ⟨hp, hd⟩ := hl
    obtain ⟨j, rfl, hf, hd, hb⟩ := h.finished hd
    obtain rfl : j = i := h.owner_eq (by rw [hp]; rfl) j rfl
    refine ⟨trivial, h.mutex, h.owner_update rfl _, ?_, hf,
      .inr (.inr (.inr ⟨?_, ?_, hb, rfl⟩))⟩
    all_goals simp [next, State.goto, State.setFrontend, hd]
  | doneFail i => exact absurd rfl (hr i)
  | readRes i r x =>
    obtain ⟨hp, rfl, rfl⟩ := hl
    obtain ⟨rfl, hquiet⟩ := h.reading hp
    refine ⟨rfl, h.mutex, h.owner_update rfl _, hquiet, .inl ?_⟩
    simp [next, State.setFrontend]
  | clearRes i =>
    obtain ⟨rfl, hquiet, -⟩ := h.leaving (.inl hl)
    refine ⟨trivial, h.mutex, h.owner_update rfl _, hquiet, .inr ⟨?_, rfl⟩⟩
    simp [next, State.goto, State.setFrontend]
  | give i =>
    obtain ⟨rfl, hquiet, hres⟩ := h.leaving (.inr hl)
    exact ⟨rfl, rfl, h.critical_update (fun _ hj => (Option.some.inj hj).symm)
      (fun hf => by cases hf), hquiet, hres hl⟩
  | answer i =>
    exact ⟨trivial, h.setFrontend (by rw [show (s.frontend i).pc = _ from hl]; rfl) rfl⟩
  | delete i r http10 =>
    refine ⟨trivial, h.setFrontend (by rw [hl.1]; rfl) ?_⟩
    simp only
    split <;> rfl
  | close i =>
    exact ⟨trivial, h.setFrontend (by rw [show (s.frontend i).pc = _ from hl]; rfl) rfl⟩

/-! ### The requests -/

/-- The requests published in a run, in order. -/
def publishes (tr : List (Label ι ρ)) : List (Option ℕ) := Slot.publishes (tr.map slotLabel)

omit [DecidableEq ι] in
/-- What the last step publishes comes behind what was published before. -/
theorem publishes_concat (tr : List (Label ι ρ)) (l : Label ι ρ) :
    publishes (tr ++ [l]) = publishes tr ++ Slot.publishes [slotLabel l] := by
  simp [publishes, Slot.publishes]

omit [DecidableEq ι] in
/-- A step that publishes nothing adds nothing. -/
theorem publishes_concat_of_ne {tr : List (Label ι ρ)} {l : Label ι ρ}
    (hne : ∀ i r, l ≠ .publish i r) : publishes (tr ++ [l]) = publishes tr := by
  rw [publishes_concat]
  cases l with
  | publish i r => exact absurd rfl (hne i r)
  | _ => exact List.append_nil _

/-- Between `http_recv_request` and `http_content_delete`. -/
def FrontendPc.holding : FrontendPc → Bool
  | .unborn | .recv | .close | .ended => false
  | _ => true

/-- Holding a request that is not published yet. -/
def FrontendPc.unpublished : FrontendPc → Bool
  | .take | .publish => true
  | _ => false

/-- Every request has one frontend, and is published at most once; `ps` are the
requests published so far. -/
structure Fresh (ps : List (Option ℕ)) (s : State ι ρ) : Prop where
  lt : ∀ i n, (s.frontend i).req = some n → n < s.contents
  inj : ∀ i j n, (s.frontend i).req = some n → (s.frontend j).req = some n → i = j
  held : ∀ i, (s.frontend i).pc.holding = true → ∃ n, (s.frontend i).req = some n
  new : ∀ i, (s.frontend i).pc.unpublished = true → (s.frontend i).req ∉ ps
  published : ∀ r ∈ ps, ∃ n < s.contents, r = some n
  nodup : ps.Nodup

omit [DecidableEq ι] in
/-- Which requests there are depends on the contents and the frontends only. -/
theorem Fresh.congr {ps : List (Option ℕ)} {s t : State ι ρ} (h : Fresh ps s)
    (hc : t.contents = s.contents) (hf : t.frontend = s.frontend) : Fresh ps t := by
  obtain ⟨h₁, h₂, h₃, h₄, h₅, h₆⟩ := h
  constructor <;> simpa only [hc, hf]

/-- A frontend moves on with the request it holds, or drops it, and gets no
other one by that. -/
theorem Fresh.update {ps : List (Option ℕ)} {s t : State ι ρ} (h : Fresh ps s) (i : ι)
    {f : Frontend ρ} (hc : t.contents = s.contents)
    (ht : t.frontend = Function.update s.frontend i f)
    (hreq : f.req = (s.frontend i).req ∨ f.req = none)
    (hheld : f.pc.holding = true → f.req = (s.frontend i).req ∧ (s.frontend i).pc.holding = true)
    (hnew : f.pc.unpublished = true → (s.frontend i).pc.unpublished = true) : Fresh ps t := by
  have hself : t.frontend i = f := by rw [ht, Function.update_self]
  have hother : ∀ j, j ≠ i → t.frontend j = s.frontend j := fun j hj => by
    rw [ht, Function.update_of_ne hj]
  have hsub : ∀ j n, (t.frontend j).req = some n → (s.frontend j).req = some n := by
    intro j n hj
    by_cases hji : j = i
    · subst hji
      rw [hself] at hj
      rcases hreq with hreq | hreq <;> rw [hreq] at hj
      · exact hj
      · cases hj
    · rwa [hother j hji] at hj
  refine ⟨fun j n hj => hc ▸ h.lt j n (hsub j n hj),
    fun j k n hj hk => h.inj j k n (hsub j n hj) (hsub k n hk), ?_, ?_, hc ▸ h.published, h.nodup⟩
  · intro j hj
    by_cases hji : j = i
    · subst hji
      rw [hself] at hj ⊢
      rw [(hheld hj).1]
      exact h.held j (hheld hj).2
    · rw [hother j hji] at hj ⊢
      exact h.held j hj
  · intro j hj
    by_cases hji : j = i
    · subst hji
      rw [hself] at hj ⊢
      have hh : f.pc.holding = true := by
        revert hj; cases f.pc <;> simp [FrontendPc.holding, FrontendPc.unpublished]
      rw [(hheld hh).1]
      exact h.new j (hnew hj)
    · rw [hother j hji] at hj ⊢
      exact h.new j hj

/-- `http_recv_request` returns a new content, which no frontend has yet: its
number is the count of all that were returned. -/
theorem Fresh.recv {ps : List (Option ℕ)} {s : State ι ρ} (h : Fresh ps s) (i : ι) :
    Fresh ps { s.setFrontend i { s.frontend i with pc := .take, req := some s.contents } with
      contents := s.contents + 1 } := by
  obtain ⟨hlt, hinj, hheld, hnew, hpub, hnd⟩ := h
  have hold : ∀ r ∈ ps, r ≠ some s.contents := by
    rintro r hr rfl
    obtain ⟨n, hn, he⟩ := hpub _ hr
    exact absurd (Option.some.inj he) (by omega)
  refine ⟨?_, ?_, ?_, ?_, fun r hr => ?_, hnd⟩
  · intro j n hj
    simp only [State.setFrontend, Function.update_apply] at hj
    grind
  · intro j k n hj hk
    simp only [State.setFrontend, Function.update_apply] at hj hk
    grind
  · intro j hj
    simp only [State.setFrontend, Function.update_apply] at hj ⊢
    grind
  · intro j hj
    simp only [State.setFrontend, Function.update_apply] at hj ⊢
    grind
  · obtain ⟨n, hn, he⟩ := hpub r hr
    exact ⟨n, by simp only; omega, he⟩

/-- The request a frontend publishes was not published before: it publishes each
once. -/
theorem Fresh.publish {ps : List (Option ℕ)} {s : State ι ρ} (h : Fresh ps s) {i : ι}
    (hp : (s.frontend i).pc = .publish) :
    Fresh (ps ++ [(s.frontend i).req]) (s.goto i .fire) := by
  obtain ⟨n, hn⟩ := h.held i (by rw [hp]; rfl)
  have hi := h.new i (by rw [hp]; rfl)
  have h' : Fresh ps (s.goto i .fire) := h.update i rfl rfl (.inl rfl)
    (fun _ => ⟨rfl, by rw [hp]; rfl⟩) (fun hf => by cases hf)
  refine ⟨h'.lt, h'.inj, h'.held, fun j hj => ?_, fun r hr => ?_, ?_⟩
  · have hji : j ≠ i := by
      rintro rfl
      simp [State.goto, State.setFrontend, FrontendPc.unpublished] at hj
    have hreq : ((s.goto i .fire).frontend j).req = (s.frontend j).req := by
      simp [State.goto, State.setFrontend, hji]
    rw [List.mem_append, not_or, List.mem_singleton]
    refine ⟨h'.new j hj, fun he => hji (h.inj j i n ?_ hn)⟩
    rw [← hreq, he, hn]
  · rcases List.mem_append.1 hr with hr | hr
    · exact h.published r hr
    · exact ⟨n, h.lt i n hn, (List.mem_singleton.1 hr).trans hn⟩
  · rw [List.nodup_append]
    refine ⟨h.nodup, List.nodup_singleton _, fun a ha b hb hab => hi ?_⟩
    rwa [← List.mem_singleton.1 hb, ← hab]

/-- Steps that publish nothing keep the requests apart, by what a frontend does
in its own steps and that the others do not touch it. -/
theorem Fresh.next {ps : List (Option ℕ)} {s : State ι ρ} {l : Label ι ρ} (h : Fresh ps s)
    (hl : Enabled s l) (hne : ∀ i r, l ≠ .publish i r) : Fresh ps (next s l) := by
  cases l with
  | publish i r => exact absurd rfl (hne i r)
  | pollAccepter | testBreak | pollFastcgi =>
    refine h.congr ?_ ?_ <;> simp only [Mpm.next] <;> split <;> (try split) <;> rfl
  | accept conn =>
    cases conn with
    | none => exact h.congr rfl rfl
    | some i => exact h.update i rfl rfl (.inr rfl) (fun hf => by cases hf) (fun hf => by cases hf)
  | recv i got =>
    cases got with
    | true => exact h.recv i
    | false => exact h.update i rfl rfl (.inr rfl) (fun hf => by cases hf) (fun hf => by cases hf)
  | take i =>
    exact h.update i rfl rfl (.inl rfl) (fun _ => ⟨rfl, by rw [hl.1]; rfl⟩)
      (fun _ => by rw [hl.1]; rfl)
  | takeFail i | setFire i | doneFail i | clearRes i | give i | answer i =>
    have hp : (s.frontend i).pc = _ := hl
    exact h.update i rfl rfl (.inl rfl) (fun _ => ⟨rfl, by rw [hp]; rfl⟩) (fun hf => by cases hf)
  | doneTaken i | readRes i _ _ =>
    exact h.update i rfl rfl (.inl rfl) (fun _ => ⟨rfl, by rw [hl.1]; rfl⟩) (fun hf => by cases hf)
  | delete i r http10 =>
    refine h.update i rfl rfl (.inr rfl) (fun hf => ?_) (fun hf => ?_) <;> revert hf <;>
      simp only <;> split <;> simp [FrontendPc.holding, FrontendPc.unpublished]
  | close i =>
    exact h.update i rfl rfl (.inl rfl) (fun hf => by cases hf) (fun hf => by cases hf)
  | _ => exact h.congr rfl rfl

/-- Every step keeps the requests apart.  A new one gets a number that no
content had before, and the others keep theirs. -/
theorem step_fresh {tr : List (Label ι ρ)} {s : State ι ρ} {l : Label ι ρ}
    (h : Fresh (publishes tr) s) (hl : Enabled s l) :
    Fresh (publishes (tr ++ [l])) (next s l) := by
  by_cases hp : ∃ i r, l = .publish i r
  · obtain ⟨i, r, rfl⟩ := hp
    obtain ⟨hp, rfl⟩ := hl
    rw [publishes_concat]
    exact (h.publish hp).congr rfl rfl
  · have hne : ∀ i r, l ≠ .publish i r := fun i r he => hp ⟨i, r, he⟩
    rw [publishes_concat_of_ne hne]
    exact h.next hl hne

/-! ### Runs -/

omit [DecidableEq ι] in
/-- At the start the slot is free. -/
theorem init_sim : Sim (init ι ρ) .free := ⟨rfl, (fun _ h => by cases h), ⟨rfl, rfl, rfl⟩, rfl⟩

omit [DecidableEq ι] in
/-- And there is no request. -/
theorem init_fresh : Fresh [] (init ι ρ) where
  lt := fun _ _ h => by cases h
  inj := fun _ _ _ h => by cases h
  held := fun _ h => by cases h
  new := fun _ _ => List.not_mem_nil
  published := fun _ h => absurd h List.not_mem_nil
  nodup := List.nodup_nil

/-- No request is published twice in any run, step by step. -/
theorem run_fresh {tr : List (Label ι ρ)} {s : State ι ρ} (h : (mpm ι ρ).Run (init ι ρ) tr s) :
    Fresh (publishes tr) s :=
  Lib.Machine.run_induction (P := fun tr s => Fresh (publishes tr) s) init_fresh
    (fun _ _ _ _ ih hl => step_fresh ih hl) h

/-- **The threads refine the rendezvous.**  Every run of them is a run of the
slot, step by step, as long as no wait of a frontend fails. -/
theorem run_sim {tr : List (Label ι ρ)} {s : State ι ρ} (h : (mpm ι ρ).Run (init ι ρ) tr s)
    (hr : ∀ i, .doneFail i ∉ tr) :
    ∃ c, (Slot.rendezvous ι (Option ℕ) (Option ρ)).Run .free (tr.map slotLabel) c ∧ Sim s c :=
  Lib.Machine.exists_run_map (fun _ _ _ => step_sim) init_sim
    (fun l hl i (he : l = .doneFail i) => hr i (he ▸ hl)) h

omit [DecidableEq ι] in
/-- The slot is published by the frontend's own step.  No other label of the
server is one of `publish`. -/
theorem publish_mem {tr : List (Label ι ρ)} {i : ι} {r : Option ℕ}
    (h : .publish i r ∈ tr.map slotLabel) : .publish i r ∈ tr := by
  obtain ⟨l, hl, he⟩ := List.mem_map.1 h
  cases l with
  | publish j q =>
    obtain ⟨rfl, rfl⟩ : j = i ∧ q = r := by simpa [slotLabel] using he
    exact hl
  | _ => cases he

omit [DecidableEq ι] in
/-- The slot is answered by `process_cb` returning.  No other label of the
server is one of `ret`. -/
theorem ret_mem {tr : List (Label ι ρ)} {r : Option ℕ} {x : Option ρ} :
    .ret r x ∈ tr.map slotLabel ↔ .ret r x ∈ tr := by
  refine ⟨fun h => ?_, fun h => List.mem_map.2 ⟨_, h, rfl⟩⟩
  obtain ⟨l, hl, he⟩ := List.mem_map.1 h
  cases l with
  | ret q y =>
    obtain ⟨rfl, rfl⟩ : q = r ∧ y = x := by simpa [slotLabel] using he
    exact hl
  | _ => cases he

/-- The request on the way to `process_cb` belongs to the frontend that holds
the mutex. -/
theorem run_loading {tr : List (Label ι ρ)} {s : State ι ρ}
    (h : (mpm ι ρ).Run (init ι ρ) tr s) (hr : ∀ i, .doneFail i ∉ tr)
    (hw : s.fastcgi.pc = .call) :
    ∃ i n, s.mutexFastcgi = some i ∧ (s.frontend i).req = some n ∧ (s.frontend i).pc = .wait ∧
      s.fastcgi.req = some n ∧ .publish i (some n) ∈ tr := by
  obtain ⟨c, hrun, hsim⟩ := run_sim h hr
  obtain ⟨i, rfl, hq, hp, -, -, -, hwq⟩ := hsim.loading (.inr hw)
  obtain ⟨n, hn⟩ := (run_fresh h).held i (by rw [hp]; rfl)
  have hreq : s.req = some n := hq.symm.trans hn
  refine ⟨i, n, hsim.mutex, hn, hp, (hwq hw).trans hreq, publish_mem ?_⟩
  exact Slot.publish_mem_of_request hrun (by rw [hreq]; rfl)

/-- A response in `*res` is for the request its reader has published. -/
theorem run_reading {tr : List (Label ι ρ)} {s : State ι ρ}
    (h : (mpm ι ρ).Run (init ι ρ) tr s) (hr : ∀ i, .doneFail i ∉ tr) {i : ι}
    (hp : (s.frontend i).pc = .readRes) : .publish i (s.frontend i).req ∈ tr := by
  obtain ⟨c, hrun, hsim⟩ := run_sim h hr
  obtain ⟨rfl, -⟩ := hsim.reading hp
  exact publish_mem (Slot.publish_mem_of_request hrun rfl)

/-- While `process_cb` is running, the frontend of its request waits.  It goes
on by a `http_event_set` of the worker only, which comes behind the callback. -/
theorem run_processing {tr : List (Label ι ρ)} {s : State ι ρ}
    (h : (mpm ι ρ).Run (init ι ρ) tr s) (hr : ∀ i, .doneFail i ∉ tr) {i : ι}
    (hw : s.fastcgi.pc = .process) (hi : (s.frontend i).pc.holding = true)
    (hreq : s.fastcgi.req = (s.frontend i).req) : (s.frontend i).pc = .wait := by
  obtain ⟨c, -, hsim⟩ := run_sim h hr
  obtain ⟨j, -, hq, hp, -, -⟩ := hsim.processing hw
  obtain ⟨n, hn⟩ := (run_fresh h).held i hi
  have hj : (s.frontend j).req = some n := by rw [hq, hreq, hn]
  rwa [(run_fresh h).inj i j n hn hj]

/-- **The hand-off is correct in every interleaving.**  For every run of the
server in which `http_mutex_take` and `http_event_wait` return only on success,
with any number of frontends, any timeouts and any restarts of the worker:

* whenever `process_cb` is called, it is with the request that the owner of
  `mutex_fastcgi` has published;
* no request is handed to `process_cb` twice;
* the response a frontend reads out of `*res` is the one, and the only one, that
  `process_cb` returned for the request this frontend holds;
* no frontend deletes a request while `process_cb` is running on it. -/
theorem handoff_correct {tr : List (Label ι ρ)} {s : State ι ρ}
    (h : (mpm ι ρ).Run (init ι ρ) tr s) (hr : ∀ l ∈ tr, l.Reliable) :
    (∀ tr₁ r tr₂, tr = tr₁ ++ .call r :: tr₂ →
      ∃ s₁ i n, (mpm ι ρ).Run (init ι ρ) tr₁ s₁ ∧ s₁.mutexFastcgi = some i ∧
        (s₁.frontend i).req = some n ∧ (s₁.frontend i).pc = .wait ∧ r = some n ∧
        .publish i r ∈ tr₁) ∧
    (Slot.calls (tr.map slotLabel)).Nodup ∧
    (∀ tr₁ i r x tr₂, tr = tr₁ ++ .readRes i r x :: tr₂ →
      .ret r x ∈ tr₁ ∧ .publish i r ∈ tr₁ ∧ ∀ y, .ret r y ∈ tr → y = x) ∧
    (∀ tr₁ i r http10 tr₂ s₁, tr = tr₁ ++ .delete i r http10 :: tr₂ →
      (mpm ι ρ).Run (init ι ρ) tr₁ s₁ →
      ¬(s₁.fastcgi.pc = .process ∧ s₁.fastcgi.req = r)) := by
  have hwait : ∀ i, .doneFail i ∉ tr := fun i hi => hr _ hi
  obtain ⟨c, hrun, -⟩ := run_sim h hwait
  have hnd : (Slot.publishes (tr.map slotLabel)).Nodup := (run_fresh h).nodup
  refine ⟨?_, ?_, ?_, ?_⟩
  · rintro tr₁ r tr₂ rfl
    obtain ⟨s₁, h₁, hw, rfl⟩ := Lib.Machine.exists_run_of_split h
    obtain ⟨i, n, hm, hq, hp, hwq, hpub⟩ :=
      run_loading h₁ (fun j hj => hwait j (List.mem_append_left _ hj)) hw
    exact ⟨s₁, i, n, h₁, hm, hq, hp, hwq, hwq ▸ hpub⟩
  · rw [Slot.publishes_eq hrun] at hnd
    exact (List.nodup_append.1 hnd).1
  · rintro tr₁ i r x tr₂ rfl
    obtain ⟨s₁, h₁, hp, rfl, rfl⟩ := Lib.Machine.exists_run_of_split h
    rw [List.map_append, List.map_cons] at hrun hnd
    obtain ⟨hret, honly⟩ := Slot.read_eq_ret hrun hnd
    refine ⟨ret_mem.1 hret, ?_, fun y hy => honly y ?_⟩
    · exact run_reading h₁ (fun j hj => hwait j (List.mem_append_left _ hj)) hp
    · have hy' := ret_mem.2 hy
      rwa [List.map_append, List.map_cons] at hy'
  · rintro tr₁ i r http10 tr₂ s₁ rfl h₁ ⟨hw, hwq⟩
    obtain ⟨hp, rfl⟩ := Lib.Machine.enabled_of_split h h₁
    have hpc := run_processing h₁ (fun j hj => hwait j (List.mem_append_left _ hj)) hw
      (by rw [hp]; rfl) hwq
    rw [hp] at hpc
    cases hpc

/-- Two frontends and a timeout of the worker: `false` is served first, with
request 1, and then `true`, with request 0. -/
def twoFrontends : List (Label Bool ℕ) :=
  [.start, .beginFastcgi, .testBreak, .initializeCb, .pollAccepter, .accept (some true),
   .pollAccepter, .accept (some false), .recv true true, .recv false true, .pollFastcgi,
   .fireTimeout, .take false, .publish false (some 1), .pollFastcgi, .setFire false, .fireTaken,
   .readReq, .call (some 1), .ret (some 1) (some 7), .writeRes, .setDone, .doneTaken false,
   .readRes false (some 1) (some 7), .clearRes false, .give false, .take true,
   .publish true (some 0), .setFire true, .pollFastcgi, .fireTaken, .readReq, .call (some 0),
   .answer false, .delete false (some 1) false, .ret (some 0) none, .writeRes, .setDone,
   .doneTaken true, .readRes true (some 0) none, .clearRes true, .give true, .answer true,
   .delete true (some 0) false, .close true]

/-- The hypotheses are satisfiable: `twoFrontends` is such a run. -/
theorem handoff_correct_twoFrontends :
    (Slot.calls (twoFrontends.map slotLabel)).Nodup ∧
      ∀ y, .ret (some 1) y ∈ twoFrontends → y = some 7 := by
  have hrun : (mpm Bool ℕ).Run (init Bool ℕ) twoFrontends
      ((mpm Bool ℕ).exec (init Bool ℕ) twoFrontends) :=
    Lib.Machine.run_iff_exec.2 ⟨by decide, rfl⟩
  obtain ⟨-, hnd, hread, -⟩ := handoff_correct hrun (by decide)
  exact ⟨hnd, (hread (twoFrontends.take 23) false (some 1) (some 7) _ rfl).2.2⟩

end Mpm
end Dukserver
