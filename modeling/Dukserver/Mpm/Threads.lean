/-
# The threads of the multi-threaded server

`libhttpd/http_mpm.c`: `http_mpm_start`, `http_mpm_close`, `_worker_accepter`,
`_worker_fastcgi` and `_worker_frontend`, with the mutexes and events of
`libhttpd/http_sys_linux.c`.

One accepter thread starts the fastcgi worker and then one frontend thread for
each connection.  The frontends hand their requests to the single worker through
two slots, `*req` and `*res`, locals of the accepter; `mutex_fastcgi` gives one
frontend at a time the slots, `event_fire` tells the worker that a request is
published and `event_done` tells the frontend that the response is.

Every access of shared state is a label of its own, so the runs of `mpm` are the
interleavings of the threads.  A mutex is the thread that owns it, an event the
count of its semaphore.  What the outside decides is in the labels: whether a
connection or a request arrives, whether `http_event_waittimeout` times out,
what `process_cb` returns, and whether `http_mutex_take` or `http_event_wait`
fails, in a frontend or in `http_mpm_close`, which goes on all the same.  A callback
is one step of the worker, so it is taken to return, and `http_begin_thread` to
start its thread.  Contents are numbered in the order in which `http_recv_request`
returns them; an address that is used again after `http_content_delete` is thus a
new number.  The contents themselves, and the responses sent to the peer, are left
out: no thread decides anything by them except the HTTP version in `delete`.
-/

import Dukserver.Lib.Machine
import Mathlib.Logic.Function.Basic

namespace Dukserver
namespace Mpm

/-- `HTTP_MPM_MAX_REQUESTS` of `http_common.h`: rounds of the worker's inner
loop before it finalizes and initializes again. -/
def HTTP_MPM_MAX_REQUESTS : ℕ := 1000

/-- The calls of `http_mpm_start` and `http_mpm_close`, each naming the one to
be made next. -/
inductive MainPc
  | start
  | setBreakAccepter
  | setBreakFastcgi
  | waitAccepterExit
  | waitFastcgiExit
  | deleteBreaks
  | deleteMutex
  | deleteFire
  | deleteDone
  | closed
  deriving DecidableEq, Repr

/-- Program points of `_worker_accepter`. -/
inductive AccepterPc
  | unborn
  | beginFastcgi
  | poll
  | accept
  | exit
  | ended
  deriving DecidableEq, Repr

/-- Program points of `_worker_fastcgi`. -/
inductive FastcgiPc
  | unborn
  | loop
  | initializeCb
  | poll
  | waitFire
  | readReq
  | call
  | process
  | writeRes
  | setDone
  | finializeCb
  | exit
  | ended
  deriving DecidableEq, Repr

/-- Program points of `_worker_frontend`. -/
inductive FrontendPc
  | unborn
  | recv
  | take
  | publish
  | fire
  | wait
  | readRes
  | clearRes
  | give
  | answer
  | delete
  | close
  | ended
  deriving DecidableEq, Repr

/-- The locals of `_worker_fastcgi`; `ρ` is the type of what `process_cb`
returns other than `NULL`. -/
structure Fastcgi (ρ : Type) where
  pc : FastcgiPc
  req : Option ℕ
  res : Option ρ
  fastcgiBreak : Bool
  nrRequest : ℕ
  deriving DecidableEq, Repr

/-- The locals of `_worker_frontend`. -/
structure Frontend (ρ : Type) where
  pc : FrontendPc
  req : Option ℕ
  res : Option ρ
  fastcgiBreak : Bool
  deriving DecidableEq, Repr

/-- The shared state and all threads; `ι` names the frontends. -/
structure State (ι ρ : Type) where
  mutexFastcgi : Option ι
  eventFire : ℕ
  eventDone : ℕ
  eventBreakAccepter : ℕ
  eventBreakFastcgi : ℕ
  eventAccepterExit : ℕ
  eventFastcgiExit : ℕ
  /-- The slot `*req`. -/
  req : Option ℕ
  /-- The slot `*res`. -/
  res : Option ρ
  /-- How many contents `http_recv_request` has returned. -/
  contents : ℕ
  main : MainPc
  accepter : AccepterPc
  fastcgi : Fastcgi ρ
  frontend : ι → Frontend ρ

/-- Before `http_mpm_start`: no thread but the main one. -/
def init (ι ρ : Type) : State ι ρ where
  mutexFastcgi := none
  eventFire := 0
  eventDone := 0
  eventBreakAccepter := 0
  eventBreakFastcgi := 0
  eventAccepterExit := 0
  eventFastcgiExit := 0
  req := none
  res := none
  contents := 0
  main := .start
  accepter := .unborn
  fastcgi := ⟨.unborn, none, none, false, 0⟩
  frontend := fun _ => ⟨.unborn, none, none, false⟩

/-- One atomic step of one thread. -/
inductive Label (ι ρ : Type)
  /-- `http_mpm_start`, then the calls of `http_mpm_close` in order.  The two
  calls of `http_event_wait` can fail, and what they return is not looked at. -/
  | start
  | setBreakAccepter
  | setBreakFastcgi
  | waitAccepterExit
  | accepterExitFail
  | waitFastcgiExit
  | fastcgiExitFail
  | deleteBreaks
  | deleteMutex
  | deleteFire
  | deleteDone
  /-- `_worker_accepter`. -/
  | beginFastcgi
  | pollAccepter
  | accept (conn : Option ι)
  | accepterEnd
  /-- `_worker_fastcgi`. -/
  | testBreak
  | initializeCb
  | pollFastcgi
  | fireTimeout
  | fireTaken
  | readReq
  | call (r : Option ℕ)
  | ret (r : Option ℕ) (x : Option ρ)
  | writeRes
  | setDone
  | finializeCb
  | fastcgiEnd
  /-- `_worker_frontend`. -/
  | recv (i : ι) (got : Bool)
  | take (i : ι)
  | takeFail (i : ι)
  | publish (i : ι) (r : Option ℕ)
  | setFire (i : ι)
  | doneTaken (i : ι)
  | doneFail (i : ι)
  | readRes (i : ι) (r : Option ℕ) (x : Option ρ)
  | clearRes (i : ι)
  | give (i : ι)
  | answer (i : ι)
  | delete (i : ι) (r : Option ℕ) (http10 : Bool)
  | close (i : ι)
  deriving DecidableEq, Repr

variable {ι ρ : Type} [DecidableEq ι]

/-- The thread the label belongs to is at that call, and the call can return: a
mutex is taken when it is free, an event when its count is positive, and a
thread is started that was not started before. -/
def Enabled (s : State ι ρ) : Label ι ρ → Prop
  | .start => s.main = .start
  | .setBreakAccepter => s.main = .setBreakAccepter
  | .setBreakFastcgi => s.main = .setBreakFastcgi
  | .waitAccepterExit => s.main = .waitAccepterExit ∧ 0 < s.eventAccepterExit
  | .accepterExitFail => s.main = .waitAccepterExit
  | .waitFastcgiExit => s.main = .waitFastcgiExit ∧ 0 < s.eventFastcgiExit
  | .fastcgiExitFail => s.main = .waitFastcgiExit
  | .deleteBreaks => s.main = .deleteBreaks
  | .deleteMutex => s.main = .deleteMutex
  | .deleteFire => s.main = .deleteFire
  | .deleteDone => s.main = .deleteDone
  | .beginFastcgi => s.accepter = .beginFastcgi ∧ s.fastcgi.pc = .unborn
  | .pollAccepter => s.accepter = .poll
  | .accept none => s.accepter = .accept
  | .accept (some i) => s.accepter = .accept ∧ (s.frontend i).pc = .unborn
  | .accepterEnd => s.accepter = .exit
  | .testBreak => s.fastcgi.pc = .loop
  | .initializeCb => s.fastcgi.pc = .initializeCb
  | .pollFastcgi => s.fastcgi.pc = .poll
  | .fireTimeout => s.fastcgi.pc = .waitFire
  | .fireTaken => s.fastcgi.pc = .waitFire ∧ 0 < s.eventFire
  | .readReq => s.fastcgi.pc = .readReq
  | .call r => s.fastcgi.pc = .call ∧ r = s.fastcgi.req
  | .ret r _ => s.fastcgi.pc = .process ∧ r = s.fastcgi.req
  | .writeRes => s.fastcgi.pc = .writeRes
  | .setDone => s.fastcgi.pc = .setDone
  | .finializeCb => s.fastcgi.pc = .finializeCb
  | .fastcgiEnd => s.fastcgi.pc = .exit
  | .recv i _ => (s.frontend i).pc = .recv
  | .take i => (s.frontend i).pc = .take ∧ s.mutexFastcgi = none
  | .takeFail i => (s.frontend i).pc = .take
  | .publish i r => (s.frontend i).pc = .publish ∧ r = (s.frontend i).req
  | .setFire i => (s.frontend i).pc = .fire
  | .doneTaken i => (s.frontend i).pc = .wait ∧ 0 < s.eventDone
  | .doneFail i => (s.frontend i).pc = .wait
  | .readRes i r x => (s.frontend i).pc = .readRes ∧ r = (s.frontend i).req ∧ x = s.res
  | .clearRes i => (s.frontend i).pc = .clearRes
  | .give i => (s.frontend i).pc = .give
  | .answer i => (s.frontend i).pc = .answer
  | .delete i r _ => (s.frontend i).pc = .delete ∧ r = (s.frontend i).req
  | .close i => (s.frontend i).pc = .close

/-- Replace the locals of frontend `i`. -/
def State.setFrontend (s : State ι ρ) (i : ι) (f : Frontend ρ) : State ι ρ :=
  { s with frontend := Function.update s.frontend i f }

/-- Move frontend `i` to the program point `pc`. -/
def State.goto (s : State ι ρ) (i : ι) (pc : FrontendPc) : State ι ρ :=
  s.setFrontend i { s.frontend i with pc := pc }

/-- Move the fastcgi worker to the program point `pc`. -/
def State.fastcgiGoto (s : State ι ρ) (pc : FastcgiPc) : State ι ρ :=
  { s with fastcgi := { s.fastcgi with pc := pc } }

/-- What the step does. -/
def next (s : State ι ρ) : Label ι ρ → State ι ρ
  | .start => { s with main := .setBreakAccepter, accepter := .beginFastcgi }
  | .setBreakAccepter =>
    { s with main := .setBreakFastcgi, eventBreakAccepter := s.eventBreakAccepter + 1 }
  | .setBreakFastcgi =>
    { s with main := .waitAccepterExit, eventBreakFastcgi := s.eventBreakFastcgi + 1 }
  | .waitAccepterExit =>
    { s with main := .waitFastcgiExit, eventAccepterExit := s.eventAccepterExit - 1 }
  | .accepterExitFail => { s with main := .waitFastcgiExit }
  | .waitFastcgiExit =>
    { s with main := .deleteBreaks, eventFastcgiExit := s.eventFastcgiExit - 1 }
  | .fastcgiExitFail => { s with main := .deleteBreaks }
  | .deleteBreaks => { s with main := .deleteMutex }
  | .deleteMutex => { s with main := .deleteFire }
  | .deleteFire => { s with main := .deleteDone }
  | .deleteDone => { s with main := .closed }
  | .beginFastcgi =>
    { s with accepter := .poll, fastcgi := ⟨.loop, none, none, false, 0⟩ }
  | .pollAccepter =>
    if 0 < s.eventBreakAccepter then
      { s with accepter := .exit, eventBreakAccepter := s.eventBreakAccepter - 1 }
    else { s with accepter := .accept }
  | .accept none => { s with accepter := .poll }
  | .accept (some i) =>
    { s.setFrontend i ⟨.recv, none, none, false⟩ with accepter := .poll }
  | .accepterEnd =>
    { s with accepter := .ended, eventAccepterExit := s.eventAccepterExit + 1 }
  | .testBreak =>
    if s.fastcgi.fastcgiBreak then s.fastcgiGoto .exit
    else if 0 < s.eventBreakFastcgi then
      { s.fastcgiGoto .exit with eventBreakFastcgi := s.eventBreakFastcgi - 1 }
    else s.fastcgiGoto .initializeCb
  | .initializeCb =>
    { s with fastcgi := { s.fastcgi with pc := .poll, nrRequest := 0 } }
  | .pollFastcgi =>
    if HTTP_MPM_MAX_REQUESTS ≤ s.fastcgi.nrRequest then s.fastcgiGoto .finializeCb
    else if 0 < s.eventBreakFastcgi then
      { s with
        fastcgi := { s.fastcgi with pc := .finializeCb, fastcgiBreak := true }
        eventBreakFastcgi := s.eventBreakFastcgi - 1 }
    else s.fastcgiGoto .waitFire
  | .fireTimeout =>
    { s with fastcgi := { s.fastcgi with pc := .poll, nrRequest := s.fastcgi.nrRequest + 1 } }
  | .fireTaken => { s.fastcgiGoto .readReq with eventFire := s.eventFire - 1 }
  | .readReq => { s with fastcgi := { s.fastcgi with pc := .call, req := s.req } }
  | .call _ => s.fastcgiGoto .process
  | .ret _ x => { s with fastcgi := { s.fastcgi with pc := .writeRes, res := x } }
  | .writeRes => { s.fastcgiGoto .setDone with res := s.fastcgi.res }
  | .setDone =>
    { s with
      fastcgi := { s.fastcgi with pc := .poll, nrRequest := s.fastcgi.nrRequest + 1 }
      eventDone := s.eventDone + 1 }
  | .finializeCb => s.fastcgiGoto .loop
  | .fastcgiEnd =>
    { s.fastcgiGoto .ended with eventFastcgiExit := s.eventFastcgiExit + 1 }
  | .recv i true =>
    { s.setFrontend i { s.frontend i with pc := .take, req := some s.contents } with
      contents := s.contents + 1 }
  | .recv i false => s.setFrontend i { s.frontend i with pc := .close, req := none }
  | .take i => { s.goto i .publish with mutexFastcgi := some i }
  | .takeFail i => s.goto i .answer
  | .publish i r => { s.goto i .fire with req := r }
  | .setFire i => { s.goto i .wait with eventFire := s.eventFire + 1 }
  | .doneTaken i => { s.goto i .readRes with eventDone := s.eventDone - 1 }
  | .doneFail i => s.goto i .give
  | .readRes i _ x => s.setFrontend i { s.frontend i with pc := .clearRes, res := x }
  | .clearRes i => { s.goto i .give with res := none }
  | .give i => { s.goto i .answer with mutexFastcgi := none }
  | .answer i =>
    -- a missing response is answered with status 500, and the connection closed
    s.setFrontend i { s.frontend i with
      pc := .delete
      res := none
      fastcgiBreak := (s.frontend i).fastcgiBreak || (s.frontend i).res.isNone }
  | .delete i _ http10 =>
    let stop := (s.frontend i).fastcgiBreak || http10
    s.setFrontend i { s.frontend i with
      pc := if stop then .close else .recv
      req := none
      fastcgiBreak := stop }
  | .close i => s.goto i .ended

instance [DecidableEq ρ] (s : State ι ρ) (l : Label ι ρ) : Decidable (Enabled s l) := by
  unfold Enabled
  split <;> infer_instance

/-- The server: its runs are the interleavings of its threads. -/
def mpm (ι ρ : Type) [DecidableEq ι] : Lib.Machine (State ι ρ) (Label ι ρ) where
  Enabled := Enabled
  next := next

instance [DecidableEq ρ] (s : State ι ρ) (l : Label ι ρ) : Decidable ((mpm ι ρ).Enabled s l) :=
  inferInstanceAs (Decidable (Enabled s l))

/-- A frontend that was set is what it was set to. -/
@[simp] theorem State.setFrontend_self (s : State ι ρ) (i : ι) (f : Frontend ρ) :
    (s.setFrontend i f).frontend i = f := Function.update_self ..

/-- A frontend that goes on has a new place, and keeps its locals. -/
@[simp] theorem State.goto_self (s : State ι ρ) (i : ι) (pc : FrontendPc) :
    (s.goto i pc).frontend i = { s.frontend i with pc := pc } := Function.update_self ..

/-! ### Whose step it is -/

/-- The frontend that makes the step or is started by it. -/
def Label.frontend : Label ι ρ → Option ι
  | .accept conn => conn
  | .recv i _ | .take i | .takeFail i | .publish i _ | .setFire i | .doneTaken i | .doneFail i
  | .readRes i _ _ | .clearRes i | .give i | .answer i | .delete i _ _ | .close i => some i
  | _ => none

/-- The other frontends stay where they are, so an invariant of each frontend is
about its own steps only. -/
theorem next_frontend_of_ne {s : State ι ρ} {l : Label ι ρ} {i : ι} (h : l.frontend ≠ some i) :
    (next s l).frontend i = s.frontend i := by
  have hne : ∀ {j}, l.frontend = some j → i ≠ j := by
    rintro j hj rfl
    exact h hj
  cases l with
  | pollAccepter | testBreak | pollFastcgi =>
    simp only [next]
    split <;> (try split) <;> rfl
  | accept conn =>
    cases conn with
    | none => rfl
    | some j => exact Function.update_of_ne (hne rfl) _ _
  | recv j got => cases got <;> exact Function.update_of_ne (hne rfl) _ _
  | take j | takeFail j | publish j _ | setFire j | doneTaken j | doneFail j | readRes j _ _
  | clearRes j | give j | answer j | delete j _ _ | close j =>
    exact Function.update_of_ne (hne rfl) _ _
  | _ => rfl

/-- The steps of a frontend, with the program points before and after. -/
inductive FrontendStep (i : ι) : Label ι ρ → FrontendPc → FrontendPc → Prop
  | accept : FrontendStep i (.accept (some i)) .unborn .recv
  | recv : FrontendStep i (.recv i true) .recv .take
  | recvNull : FrontendStep i (.recv i false) .recv .close
  | take : FrontendStep i (.take i) .take .publish
  | takeFail : FrontendStep i (.takeFail i) .take .answer
  | publish (r : Option ℕ) : FrontendStep i (.publish i r) .publish .fire
  | setFire : FrontendStep i (.setFire i) .fire .wait
  | doneTaken : FrontendStep i (.doneTaken i) .wait .readRes
  | doneFail : FrontendStep i (.doneFail i) .wait .give
  | readRes (r : Option ℕ) (x : Option ρ) : FrontendStep i (.readRes i r x) .readRes .clearRes
  | clearRes : FrontendStep i (.clearRes i) .clearRes .give
  | give : FrontendStep i (.give i) .give .answer
  | answer : FrontendStep i (.answer i) .answer .delete
  | deleteLast (r : Option ℕ) (http10 : Bool) : FrontendStep i (.delete i r http10) .delete .close
  | delete (r : Option ℕ) (http10 : Bool) : FrontendStep i (.delete i r http10) .delete .recv
  | close : FrontendStep i (.close i) .close .ended

/-- **What a frontend does** in its own steps, by where it is before and behind
each of them. -/
theorem frontend_step {s : State ι ρ} {l : Label ι ρ} {i : ι} (hl : Enabled s l)
    (hli : l.frontend = some i) :
    FrontendStep i l (s.frontend i).pc ((next s l).frontend i).pc := by
  cases l with
  | accept conn =>
    obtain rfl : conn = some i := hli
    rw [hl.2]
    simpa [next] using FrontendStep.accept
  | recv j got =>
    obtain rfl : j = i := Option.some.inj hli
    rw [show (s.frontend j).pc = .recv from hl]
    cases got with
    | true => simpa [next] using FrontendStep.recv
    | false => simpa [next] using FrontendStep.recvNull
  | take j | publish j _ | doneTaken j | readRes j _ _ =>
    obtain rfl : j = i := Option.some.inj hli
    rw [hl.1]
    simp only [next, State.goto_self, State.setFrontend_self]
    constructor
  | takeFail j | setFire j | doneFail j | clearRes j | give j | answer j | close j =>
    obtain rfl : j = i := Option.some.inj hli
    rw [show (s.frontend j).pc = _ from hl]
    simp only [next, State.goto_self, State.setFrontend_self]
    constructor
  | delete j r http10 =>
    obtain rfl : j = i := Option.some.inj hli
    rw [hl.1]
    simp only [next, State.setFrontend_self]
    split
    · exact .deleteLast r http10
    · exact .delete r http10
  | _ => cases hli

omit [DecidableEq ι] in
/-- The accepter is in `httpd_accept` when that returns, with a connection or
without one. -/
theorem accepter_of_accept {s : State ι ρ} {conn : Option ι} (hl : Enabled s (.accept conn)) :
    s.accepter = .accept := by
  cases conn with
  | none => exact hl
  | some i => exact hl.1

/-- The label is the worker's, or starts it. -/
def Label.ofFastcgi : Label ι ρ → Bool
  | .beginFastcgi | .testBreak | .initializeCb | .pollFastcgi | .fireTimeout | .fireTaken
  | .readReq | .call _ | .ret _ _ | .writeRes | .setDone | .finializeCb | .fastcgiEnd => true
  | _ => false

/-- The steps of the worker, with its program point and its `nr_request` before
and after. -/
inductive FastcgiStep : Label ι ρ → FastcgiPc × ℕ → FastcgiPc × ℕ → Prop
  | beginFastcgi (n : ℕ) : FastcgiStep .beginFastcgi (.unborn, n) (.loop, 0)
  | testBreak (n : ℕ) : FastcgiStep .testBreak (.loop, n) (.initializeCb, n)
  | testBreakExit (n : ℕ) : FastcgiStep .testBreak (.loop, n) (.exit, n)
  | initializeCb (n : ℕ) : FastcgiStep .initializeCb (.initializeCb, n) (.poll, 0)
  | poll (n : ℕ) (hn : n < HTTP_MPM_MAX_REQUESTS) :
    FastcgiStep .pollFastcgi (.poll, n) (.waitFire, n)
  | pollEnd (n : ℕ) : FastcgiStep .pollFastcgi (.poll, n) (.finializeCb, n)
  | fireTimeout (n : ℕ) : FastcgiStep .fireTimeout (.waitFire, n) (.poll, n + 1)
  | fireTaken (n : ℕ) : FastcgiStep .fireTaken (.waitFire, n) (.readReq, n)
  | readReq (n : ℕ) : FastcgiStep .readReq (.readReq, n) (.call, n)
  | call (r : Option ℕ) (n : ℕ) : FastcgiStep (.call r) (.call, n) (.process, n)
  | ret (r : Option ℕ) (x : Option ρ) (n : ℕ) : FastcgiStep (.ret r x) (.process, n) (.writeRes, n)
  | writeRes (n : ℕ) : FastcgiStep .writeRes (.writeRes, n) (.setDone, n)
  | setDone (n : ℕ) : FastcgiStep .setDone (.setDone, n) (.poll, n + 1)
  | finializeCb (n : ℕ) : FastcgiStep .finializeCb (.finializeCb, n) (.loop, n)
  | fastcgiEnd (n : ℕ) : FastcgiStep .fastcgiEnd (.exit, n) (.ended, n)

/-- The other threads leave the worker where it is.  They change events and
slots, which it finds when it comes to them. -/
theorem next_fastcgi_of_not {s : State ι ρ} {l : Label ι ρ} (h : l.ofFastcgi = false) :
    (next s l).fastcgi = s.fastcgi := by
  cases l with
  | pollAccepter =>
    simp only [next]
    split <;> rfl
  | accept conn => cases conn <;> rfl
  | recv i got => cases got <;> rfl
  | beginFastcgi | testBreak | initializeCb | pollFastcgi | fireTimeout | fireTaken | readReq
  | call _ | ret _ _ | writeRes | setDone | finializeCb | fastcgiEnd => cases h
  | _ => rfl

/-- **What the worker does** in its own steps, with the count of its requests.
Whatever is said of the worker is derived from this. -/
theorem fastcgi_step {s : State ι ρ} {l : Label ι ρ} (hl : Enabled s l) (h : l.ofFastcgi = true) :
    FastcgiStep l (s.fastcgi.pc, s.fastcgi.nrRequest)
      ((next s l).fastcgi.pc, (next s l).fastcgi.nrRequest) := by
  cases l with
  | beginFastcgi =>
    rw [show s.fastcgi.pc = .unborn from hl.2]
    exact .beginFastcgi _
  | testBreak =>
    rw [show s.fastcgi.pc = .loop from hl]
    simp only [next]
    split
    · exact .testBreakExit _
    · split
      · exact .testBreakExit _
      · exact .testBreak _
  | pollFastcgi =>
    rw [show s.fastcgi.pc = .poll from hl]
    simp only [next]
    split
    · exact .pollEnd _
    · rename_i hn
      split
      · exact .pollEnd _
      · exact .poll _ (Nat.lt_of_not_le hn)
  | fireTaken | call r | ret r x =>
    rw [show s.fastcgi.pc = _ from hl.1]
    constructor
  | initializeCb | fireTimeout | readReq | writeRes | setDone | finializeCb | fastcgiEnd =>
    rw [show s.fastcgi.pc = _ from hl]
    constructor
  | _ => cases h

/-- A step of the worker, once it was begun, starts and ends in its body: it is
not begun again, and nothing comes behind its end. -/
theorem fastcgi_begun {s : State ι ρ} {l : Label ι ρ} (hl : Enabled s l) (h : l.ofFastcgi = true)
    (hbegin : l ≠ .beginFastcgi) :
    s.fastcgi.pc ≠ .unborn ∧ s.fastcgi.pc ≠ .ended ∧ (next s l).fastcgi.pc ≠ .unborn := by
  have hstep := fastcgi_step hl h
  generalize s.fastcgi.pc = a at hstep ⊢
  generalize (next s l).fastcgi.pc = b at hstep ⊢
  generalize s.fastcgi.nrRequest = m at hstep
  generalize (next s l).fastcgi.nrRequest = n at hstep
  cases hstep with
  | beginFastcgi => exact absurd rfl hbegin
  | _ => decide

/-- Such a step leaves main and the accepter where they are, with the events
between these two, and sets the exit event of the worker only at its end. -/
theorem next_of_fastcgi {s : State ι ρ} {l : Label ι ρ} (h : l.ofFastcgi = true)
    (hbegin : l ≠ .beginFastcgi) :
    (next s l).main = s.main ∧ (next s l).accepter = s.accepter ∧
      (next s l).eventBreakAccepter = s.eventBreakAccepter ∧
      (next s l).eventAccepterExit = s.eventAccepterExit ∧
      (l ≠ .fastcgiEnd → (next s l).eventFastcgiExit = s.eventFastcgiExit) := by
  cases l with
  | beginFastcgi => exact absurd rfl hbegin
  | testBreak | pollFastcgi =>
    simp only [next]
    split
    · exact ⟨rfl, rfl, rfl, rfl, fun _ => rfl⟩
    · split <;> exact ⟨rfl, rfl, rfl, rfl, fun _ => rfl⟩
  | fastcgiEnd => exact ⟨rfl, rfl, rfl, rfl, fun hend => absurd rfl hend⟩
  | initializeCb | fireTimeout | fireTaken | readReq | call _ | ret _ _ | writeRes | setDone
  | finializeCb => exact ⟨rfl, rfl, rfl, rfl, fun _ => rfl⟩
  | _ => cases h

end Mpm
end Dukserver
