/-
# Closing the server comes to its end

`libhttpd/http_mpm.c`, `http_mpm_close`, with the accepter and the worker it waits for.
It sets both break events and waits for both exit events without a timeout.  The accepter
tries its break event after each `httpd_accept`, which times out, and the worker tries its
own after each `http_event_waittimeout` and before each `initialize_cb`; the worker also
leaves its inner loop for the count of requests, and then finds the event in the outer one.

So each break event that is set stays set until its thread has seen it (`Orderly`), the
steps that the three threads have left can be counted (`closeRank`), and `http_mpm_close`
returns under every schedule of them, whatever the frontends do (`close_terminates`).  A
wait of `http_mpm_close` that fails takes it on as well, too early, so the steps are
counted with such waits and the way on is shown without them.
-/

import Dukserver.Lib.Progress
import Dukserver.Mpm.Shutdown

namespace Dukserver
namespace Mpm

variable {ι ρ : Type}

/-! ### What the threads know of the break events -/

/-- Behind `http_event_set(event_break_accepter)`. -/
def MainPc.accepterTold : MainPc → Bool
  | .start | .setBreakAccepter => false
  | _ => true

/-- Behind `http_event_set(event_break_fastcgi)`. -/
def MainPc.fastcgiTold : MainPc → Bool
  | .start | .setBreakAccepter | .setBreakFastcgi => false
  | _ => true

/-- Before the accepter has seen its break event. -/
def AccepterPc.running : AccepterPc → Bool
  | .beginFastcgi | .poll | .accept => true
  | _ => false

/-- Before the worker has left its loops. -/
def FastcgiPc.running : FastcgiPc → Bool
  | .exit | .ended => false
  | _ => true

/-- Behind the inner loop, in which the worker sets `fastcgi_break`. -/
def FastcgiPc.stopping : FastcgiPc → Bool
  | .finializeCb | .loop | .exit | .ended => true
  | _ => false

/-- What is known of the accepter, of its events, and of whether
`http_mpm_close` has told it to stop and has waited for it. -/
structure AccepterOrderly (told gone : Bool) (a : AccepterPc) (eventBreak eventExit : ℕ) :
    Prop where
  pending : told = true → a.running = true → 0 < eventBreak
  exit : a = .ended → 0 < eventExit ∨ gone = true

/-- The same of the worker. -/
structure FastcgiOrderly (told gone : Bool) (w : Fastcgi ρ) (eventBreak eventExit : ℕ) :
    Prop where
  pending : told = true → w.pc.running = true → w.fastcgiBreak = false → 0 < eventBreak
  flag : w.fastcgiBreak = true → w.pc.stopping = true
  exit : w.pc = .ended → 0 < eventExit ∨ gone = true

/-- **A break event stays set until its thread has seen it**, and an exit event
until `http_mpm_close` has. -/
structure Orderly (s : State ι ρ) : Prop where
  start : s.main = .start ↔ s.accepter = .unborn
  unborn : s.fastcgi.pc = .unborn ↔ s.accepter = .unborn ∨ s.accepter = .beginFastcgi
  accepter : AccepterOrderly s.main.accepterTold s.main.accepterGone s.accepter
    s.eventBreakAccepter s.eventAccepterExit
  fastcgi : FastcgiOrderly s.main.fastcgiTold s.main.fastcgiGone s.fastcgi
    s.eventBreakFastcgi s.eventFastcgiExit

section Orderly

variable {s t : State ι ρ} {l : Label ι ρ}

/-- At the start no break event is set, and no thread is there. -/
theorem init_orderly : Orderly (init ι ρ) where
  start := by simp [init]
  unborn := by simp [init]
  accepter := ⟨by simp [init, MainPc.accepterTold], by simp [init]⟩
  fastcgi := ⟨by simp [init, MainPc.fastcgiTold], by simp [init], by simp [init]⟩

/-- `fastcgi_break` is set only on the way out. -/
theorem FastcgiOrderly.flag_eq_false {told gone : Bool} {w : Fastcgi ρ} {m n : ℕ}
    (h : FastcgiOrderly told gone w m n) (hs : w.pc.stopping = false) : w.fastcgiBreak = false := by
  by_contra hf
  rw [h.flag (Bool.eq_true_of_not_eq_false hf)] at hs
  cases hs

/-- The worker goes on, and takes no break event. -/
theorem FastcgiOrderly.goto {told gone : Bool} {w w' : Fastcgi ρ} {m n : ℕ}
    (h : FastcgiOrderly told gone w m n) (hs : w.pc.running = true) (ht : w'.pc ≠ .ended)
    (hflag : w'.fastcgiBreak = w.fastcgiBreak)
    (hstop : w.fastcgiBreak = true → w'.pc.stopping = true) : FastcgiOrderly told gone w' m n where
  pending := fun htold _ hf => h.pending htold hs (hflag.symm.trans hf)
  flag := fun hf => hstop (hflag.symm.trans hf)
  exit := fun hend => absurd hend ht

/-- It leaves its loops, with or without the break event. -/
theorem FastcgiOrderly.of_exit {told gone : Bool} {w : Fastcgi ρ} {m n : ℕ}
    (hw : w.pc = .exit) : FastcgiOrderly told gone w m n :=
  ⟨by simp [hw, FastcgiPc.running], by simp [hw, FastcgiPc.stopping], by simp [hw]⟩

/-- A step of the worker leaves the others alone.  What has to be shown again is
the part of the worker. -/
theorem Orderly.fastcgiStep (h : Orderly s) (hs : s.fastcgi.pc ≠ .unborn)
    (ht : t.fastcgi.pc ≠ .unborn) (hm : t.main = s.main) (ha : t.accepter = s.accepter)
    (hb : t.eventBreakAccepter = s.eventBreakAccepter)
    (he : t.eventAccepterExit = s.eventAccepterExit)
    (hw : FastcgiOrderly s.main.fastcgiTold s.main.fastcgiGone t.fastcgi t.eventBreakFastcgi
      t.eventFastcgiExit) : Orderly t where
  start := by rw [hm, ha]; exact h.start
  unborn := by
    rw [ha]
    exact ⟨fun hu => absurd hu ht, fun hu => absurd (h.unborn.2 hu) hs⟩
  accepter := by rw [hm, ha, hb, he]; exact h.accepter
  fastcgi := by rw [hm]; exact hw

variable [DecidableEq ι]

/-- **The worker takes its break event only where it stops**: the outer loop by
leaving it, and the inner one with `fastcgi_break` set. -/
theorem FastcgiOrderly.step {told gone : Bool}
    (h : FastcgiOrderly told gone s.fastcgi s.eventBreakFastcgi s.eventFastcgiExit)
    (hl : Enabled s l) (hw : l.ofFastcgi = true) (hbegin : l ≠ .beginFastcgi) :
    FastcgiOrderly told gone (next s l).fastcgi (next s l).eventBreakFastcgi
      (next s l).eventFastcgiExit := by
  cases l with
  | beginFastcgi => exact absurd rfl hbegin
  | testBreak =>
    have hpc : s.fastcgi.pc = .loop := hl
    simp only [next]
    split
    · exact .of_exit rfl
    · rename_i hflag
      split
      · exact .of_exit rfl
      · exact h.goto (by rw [hpc]; rfl) (by simp [State.fastcgiGoto]) rfl
          fun hf => absurd hf hflag
  | pollFastcgi =>
    have hpc : s.fastcgi.pc = .poll := hl
    have hflag := h.flag_eq_false (by rw [hpc]; rfl)
    have hgoto : ∀ pc : FastcgiPc, pc ≠ .ended → FastcgiOrderly told gone
        { s.fastcgi with pc := pc } s.eventBreakFastcgi s.eventFastcgiExit :=
      fun pc hne => h.goto (by rw [hpc]; rfl) hne rfl fun hf => by rw [hflag] at hf; cases hf
    simp only [next]
    split
    · exact hgoto .finializeCb (by simp)
    · split
      · exact ⟨by simp, by simp [FastcgiPc.stopping], by simp⟩
      · exact hgoto .waitFire (by simp)
  | initializeCb | fireTimeout | readReq | writeRes | setDone =>
    have hpc : s.fastcgi.pc = _ := hl
    have hflag := h.flag_eq_false (by rw [hpc]; rfl)
    exact h.goto (by rw [hpc]; rfl) (by simp [next, State.fastcgiGoto]) rfl
      fun hf => by rw [hflag] at hf; cases hf
  | fireTaken | call _ | ret _ _ =>
    have hpc : s.fastcgi.pc = _ := hl.1
    have hflag := h.flag_eq_false (by rw [hpc]; rfl)
    exact h.goto (by rw [hpc]; rfl) (by simp [next, State.fastcgiGoto]) rfl
      fun hf => by rw [hflag] at hf; cases hf
  | finializeCb =>
    have hpc : s.fastcgi.pc = .finializeCb := hl
    exact h.goto (by rw [hpc]; rfl) (by simp [next, State.fastcgiGoto]) rfl fun _ => rfl
  | fastcgiEnd =>
    exact ⟨by simp [next, State.fastcgiGoto, FastcgiPc.running], fun _ => rfl,
      fun _ => .inl (Nat.succ_pos _)⟩
  | _ => cases hw

/-- **Each thread takes its break event only where it stops**, so an event that
was set is not lost. -/
theorem step_orderly (h : Orderly s) (hl : Enabled s l) : Orderly (next s l) := by
  by_cases hworker : l.ofFastcgi = true ∧ l ≠ .beginFastcgi
  · obtain ⟨hm, ha, hb, he, -⟩ := next_of_fastcgi (s := s) hworker.1 hworker.2
    obtain ⟨hs, -, ht⟩ := fastcgi_begun hl hworker.1 hworker.2
    exact h.fastcgiStep hs ht hm ha hb he (h.fastcgi.step hl hworker.1 hworker.2)
  obtain ⟨h₁, h₂, h₃, h₄⟩ := h
  cases l with
  | start =>
    have hm : s.main = .start := hl
    have ha := h₁.1 hm
    refine ⟨by simp [next], ?_, ⟨by simp [next, MainPc.accepterTold], by simp [next]⟩, ?_⟩
    · simp [next, h₂, ha]
    · simpa [next, hm, MainPc.fastcgiTold, MainPc.fastcgiGone] using h₄
  | setBreakAccepter =>
    have hm : s.main = .setBreakAccepter := hl
    refine ⟨by simp [next, ← h₁, hm], h₂, ⟨fun _ _ => Nat.succ_pos _, ?_⟩, ?_⟩
    · simpa [next, hm, MainPc.accepterGone] using h₃.exit
    · simpa [next, hm, MainPc.fastcgiTold, MainPc.fastcgiGone] using h₄
  | setBreakFastcgi =>
    have hm : s.main = .setBreakFastcgi := hl
    refine ⟨by simp [next, ← h₁, hm], h₂, ?_, ⟨fun _ _ _ => Nat.succ_pos _, h₄.flag, ?_⟩⟩
    · simpa [next, hm, MainPc.accepterTold, MainPc.accepterGone] using h₃
    · simpa [next, hm, MainPc.fastcgiGone] using h₄.exit
  | waitAccepterExit | accepterExitFail =>
    have hm : s.main = .waitAccepterExit := by first | exact hl.1 | exact hl
    refine ⟨by simp [next, ← h₁, hm], h₂, ⟨?_, fun _ => .inr rfl⟩, ?_⟩
    · simpa [next, hm, MainPc.accepterTold] using h₃.pending
    · simpa [next, hm, MainPc.fastcgiTold, MainPc.fastcgiGone] using h₄
  | waitFastcgiExit | fastcgiExitFail =>
    have hm : s.main = .waitFastcgiExit := by first | exact hl.1 | exact hl
    refine ⟨by simp [next, ← h₁, hm], h₂, ?_, ⟨?_, h₄.flag, fun _ => .inr rfl⟩⟩
    · simpa [next, hm, MainPc.accepterTold, MainPc.accepterGone] using h₃
    · simpa [next, hm, MainPc.fastcgiTold] using h₄.pending
  | deleteBreaks | deleteMutex | deleteFire | deleteDone =>
    have hm : s.main = _ := hl
    refine ⟨by simp [next, ← h₁, hm], h₂, ?_, ?_⟩
    · simpa [next, hm, MainPc.accepterTold, MainPc.accepterGone] using h₃
    · simpa [next, hm, MainPc.fastcgiTold, MainPc.fastcgiGone] using h₄
  | beginFastcgi =>
    obtain ⟨ha, hw⟩ := hl
    refine ⟨by simp [next, h₁, ha], by simp [next], ⟨fun htold _ => ?_, by simp [next]⟩, ?_⟩
    · exact h₃.pending htold (by rw [ha]; rfl)
    · have hflag : s.fastcgi.fastcgiBreak = false := by
        by_contra hf
        have hstop := h₄.flag (Bool.eq_true_of_not_eq_false hf)
        rw [hw] at hstop
        cases hstop
      refine ⟨fun htold _ _ => h₄.pending htold (by rw [hw]; rfl) hflag, ?_, ?_⟩ <;> simp [next]
  | pollAccepter =>
    have ha : s.accepter = .poll := hl
    simp only [next]
    split
    · refine ⟨by simp [h₁, ha], by simp [h₂, ha], ⟨?_, by simp⟩, h₄⟩
      simp [AccepterPc.running]
    · rename_i hzero
      refine ⟨by simp [h₁, ha], by simp [h₂, ha], ⟨fun htold _ => ?_, by simp⟩, h₄⟩
      exact h₃.pending htold (by rw [ha]; rfl)
  | accept conn =>
    have ha := accepter_of_accept hl
    have hpending : s.main.accepterTold = true → 0 < s.eventBreakAccepter :=
      fun htold => h₃.pending htold (by rw [ha]; rfl)
    cases conn <;>
      exact ⟨by simp [next, State.setFrontend, h₁, ha], by simp [next, State.setFrontend, h₂, ha],
        ⟨fun htold _ => hpending htold, by simp [next]⟩, h₄⟩
  | accepterEnd =>
    have ha : s.accepter = .exit := hl
    refine ⟨by simp [next, h₁, ha], by simp [next, h₂, ha], ⟨?_, ?_⟩, h₄⟩
    · simp [next, AccepterPc.running]
    · simp [next]
  | testBreak | pollFastcgi | initializeCb | fireTimeout | readReq | writeRes | setDone
  | finializeCb | fireTaken | call _ | ret _ _ | fastcgiEnd =>
    exact absurd ⟨rfl, fun hl => by cases hl⟩ hworker
  | recv i got => cases got <;> exact ⟨h₁, h₂, h₃, h₄⟩
  | _ => exact ⟨h₁, h₂, h₃, h₄⟩

end Orderly

/-! ### What is left of them -/

/-- The calls of `http_mpm_close` that are left, from the first wait. -/
def MainPc.rank : MainPc → ℕ
  | .waitAccepterExit => 6
  | .waitFastcgiExit => 5
  | .deleteBreaks => 4
  | .deleteMutex => 3
  | .deleteFire => 2
  | .deleteDone => 1
  | .start | .setBreakAccepter | .setBreakFastcgi | .closed => 0

/-- The steps of the accepter that are left, once its break event is set.  The
first of them adds those of the worker it starts. -/
def AccepterPc.rank : AccepterPc → ℕ
  | .beginFastcgi => 5
  | .accept => 3
  | .poll => 2
  | .exit => 1
  | .unborn | .ended => 0

/-- The steps of the worker that are left, once its break event is set. -/
def FastcgiPc.rank : FastcgiPc → ℕ
  | .waitFire => 10
  | .readReq => 9
  | .call => 8
  | .process => 7
  | .writeRes => 6
  | .setDone => 5
  | .initializeCb => 5
  | .poll => 4
  | .finializeCb => 3
  | .loop => 2
  | .exit => 1
  | .unborn | .ended => 0

/-- The steps that are left until `http_mpm_close` returns. -/
def closeRank (s : State ι ρ) : ℕ := s.main.rank + s.accepter.rank + s.fastcgi.pc.rank

/-- A step of `http_mpm_close`, of the accepter or of the worker. -/
def Label.ofClose : Label ι ρ → Bool
  | .start | .setBreakAccepter | .setBreakFastcgi | .waitAccepterExit | .accepterExitFail
  | .waitFastcgiExit | .fastcgiExitFail | .deleteBreaks | .deleteMutex | .deleteFire
  | .deleteDone | .pollAccepter | .accept _ | .accepterEnd => true
  | l => l.ofFastcgi

/-- A call of `http_event_wait` by `http_mpm_close` that fails. -/
def Label.failsClose : Label ι ρ → Bool
  | .accepterExitFail | .fastcgiExitFail => true
  | _ => false

section Rank

variable {s t : State ι ρ} {l : Label ι ρ}

/-- The three threads have twenty-one steps left at most. -/
theorem closeRank_le (s : State ι ρ) : closeRank s ≤ 21 := by
  have hm : s.main.rank ≤ 6 := by cases s.main <;> simp [MainPc.rank]
  have ha : s.accepter.rank ≤ 5 := by cases s.accepter <;> simp [AccepterPc.rank]
  have hw : s.fastcgi.pc.rank ≤ 10 := by cases s.fastcgi.pc <;> simp [FastcgiPc.rank]
  rw [closeRank]
  omega

/-- The accepter is told first. -/
theorem MainPc.accepterTold_of_fastcgiTold {pc : MainPc} (h : pc.fastcgiTold = true) :
    pc.accepterTold = true := by
  cases pc <;> first | rfl | cases h

variable [DecidableEq ι]

/-- `http_mpm_close` takes nothing back: main goes through it in one direction.
So the worker, once told, is told in every later state. -/
theorem fastcgiTold_next (hl : Enabled s l) (h : s.main.fastcgiTold = true) :
    (next s l).main.fastcgiTold = true := by
  cases l with
  | start | setBreakAccepter =>
    rw [show s.main = _ from hl] at h
    cases h
  | pollAccepter | testBreak | pollFastcgi =>
    simp only [next]
    split <;> (try split) <;> exact h
  | accept conn => cases conn <;> exact h
  | recv i got => cases got <;> exact h
  | setBreakFastcgi | waitAccepterExit | accepterExitFail | waitFastcgiExit | fastcgiExitFail
  | deleteBreaks | deleteMutex | deleteFire | deleteDone => rfl
  | _ => exact h

/-- A frontend leaves the three threads where they are. -/
theorem closeRank_next_of_not (h : l.ofClose = false) : closeRank (next s l) = closeRank s := by
  cases l with
  | recv i got => cases got <;> rfl
  | takeFail i | take i | publish i _ | setFire i | doneTaken i | doneFail i | readRes i _ _
  | clearRes i | give i | answer i | delete i _ _ | close i => rfl
  | _ => cases h

/-- **Each step of the three threads brings the end closer**, once both are
told: wherever a thread is, its way to the end meets its break event. -/
theorem closeRank_next_lt (h : Orderly s) (htold : s.main.fastcgiTold = true) (hl : Enabled s l)
    (hc : l.ofClose = true) : closeRank (next s l) < closeRank s := by
  cases l with
  | start | setBreakAccepter | setBreakFastcgi =>
    rw [show s.main = _ from hl] at htold
    cases htold
  | waitAccepterExit | waitFastcgiExit =>
    have hm : s.main = _ := hl.1
    simp [closeRank, next, hm, MainPc.rank]
  | accepterExitFail | fastcgiExitFail | deleteBreaks | deleteMutex | deleteFire | deleteDone =>
    have hm : s.main = _ := hl
    simp [closeRank, next, hm, MainPc.rank]
  | beginFastcgi =>
    simp [closeRank, next, hl.1, hl.2, AccepterPc.rank, FastcgiPc.rank]
  | pollAccepter =>
    have ha : s.accepter = .poll := hl
    have hpos := h.accepter.pending (MainPc.accepterTold_of_fastcgiTold htold) (by rw [ha]; rfl)
    simp [closeRank, next, ha, hpos, AccepterPc.rank]
  | accept conn =>
    have ha := accepter_of_accept hl
    cases conn <;> simp [closeRank, next, State.setFrontend, ha, AccepterPc.rank]
  | accepterEnd =>
    have ha : s.accepter = .exit := hl
    simp [closeRank, next, ha, AccepterPc.rank]
  | testBreak =>
    have hw : s.fastcgi.pc = .loop := hl
    have hpos := h.fastcgi.pending htold (by rw [hw]; rfl)
    simp only [next]
    split
    · simp [closeRank, State.fastcgiGoto, hw, FastcgiPc.rank]
    · rename_i hflag
      rw [if_pos (hpos (by simpa using hflag))]
      simp [closeRank, State.fastcgiGoto, hw, FastcgiPc.rank]
  | pollFastcgi =>
    have hw : s.fastcgi.pc = .poll := hl
    have hpos := h.fastcgi.pending htold (by rw [hw]; rfl)
      (h.fastcgi.flag_eq_false (by rw [hw]; rfl))
    simp only [next]
    split
    · simp [closeRank, State.fastcgiGoto, hw, FastcgiPc.rank]
    · simp [closeRank, hw, FastcgiPc.rank]
  | initializeCb | fireTimeout | readReq | writeRes | setDone | finializeCb | fastcgiEnd =>
    have hw : s.fastcgi.pc = _ := hl
    simp [closeRank, next, State.fastcgiGoto, hw, FastcgiPc.rank]
  | fireTaken | call _ | ret _ _ =>
    have hw : s.fastcgi.pc = _ := hl.1
    simp [closeRank, next, State.fastcgiGoto, hw, FastcgiPc.rank]
  | _ => cases hc

omit [DecidableEq ι] in
/-- The accepter that was started and has not ended can go on: it waits for
nobody, as `httpd_accept` and the wait for its break event time out. -/
theorem exists_accepterStep (h : Orderly s) (hborn : s.accepter ≠ .unborn)
    (hrun : s.accepter ≠ .ended) :
    ∃ l, Enabled s l ∧ l.ofClose = true ∧ l.failsClose = false := by
  cases ha : s.accepter with
  | unborn => exact absurd ha hborn
  | beginFastcgi => exact ⟨.beginFastcgi, ⟨ha, h.unborn.2 (.inr ha)⟩, rfl, rfl⟩
  | poll => exact ⟨.pollAccepter, ha, rfl, rfl⟩
  | accept => exact ⟨.accept none, ha, rfl, rfl⟩
  | exit => exact ⟨.accepterEnd, ha, rfl, rfl⟩
  | ended => exact absurd ha hrun

omit [DecidableEq ι] in
/-- The worker that was started and has not ended can go on: its waits time out,
and its callback returns. -/
theorem exists_fastcgiStep (hborn : s.fastcgi.pc ≠ .unborn) (hrun : s.fastcgi.pc ≠ .ended) :
    ∃ l, Enabled s l ∧ l.ofClose = true ∧ l.failsClose = false := by
  cases hw : s.fastcgi.pc with
  | unborn => exact absurd hw hborn
  | loop => exact ⟨.testBreak, hw, rfl, rfl⟩
  | initializeCb => exact ⟨.initializeCb, hw, rfl, rfl⟩
  | poll => exact ⟨.pollFastcgi, hw, rfl, rfl⟩
  | waitFire => exact ⟨.fireTimeout, hw, rfl, rfl⟩
  | readReq => exact ⟨.readReq, hw, rfl, rfl⟩
  | call => exact ⟨.call _, ⟨hw, rfl⟩, rfl, rfl⟩
  | process => exact ⟨.ret _ none, ⟨hw, rfl⟩, rfl, rfl⟩
  | writeRes => exact ⟨.writeRes, hw, rfl, rfl⟩
  | setDone => exact ⟨.setDone, hw, rfl, rfl⟩
  | finializeCb => exact ⟨.finializeCb, hw, rfl, rfl⟩
  | exit => exact ⟨.fastcgiEnd, hw, rfl, rfl⟩
  | ended => exact absurd hw hrun

omit [DecidableEq ι] in
/-- **None of the three threads waits for nothing.**  Where `http_mpm_close`
waits, the thread it waits for can go on or has set its exit event.  The
accepter may still run at the second wait, if the first has failed; then it is
the accepter that goes on. -/
theorem exists_closing (h : Orderly s) (htold : s.main.fastcgiTold = true)
    (hopen : s.main ≠ .closed) :
    ∃ l, Enabled s l ∧ l.ofClose = true ∧ l.failsClose = false := by
  have hborn : s.accepter ≠ .unborn := fun hu => by
    rw [h.start.2 hu] at htold
    cases htold
  cases hm : s.main with
  | start | setBreakAccepter | setBreakFastcgi =>
    rw [hm] at htold
    cases htold
  | deleteBreaks => exact ⟨.deleteBreaks, hm, rfl, rfl⟩
  | deleteMutex => exact ⟨.deleteMutex, hm, rfl, rfl⟩
  | deleteFire => exact ⟨.deleteFire, hm, rfl, rfl⟩
  | deleteDone => exact ⟨.deleteDone, hm, rfl, rfl⟩
  | closed => exact absurd hm hopen
  | waitAccepterExit =>
    by_cases ha : s.accepter = .ended
    · have hexit := (h.accepter.exit ha).resolve_right (by simp [hm, MainPc.accepterGone])
      exact ⟨.waitAccepterExit, ⟨hm, hexit⟩, rfl, rfl⟩
    · exact exists_accepterStep h hborn ha
  | waitFastcgiExit =>
    by_cases ha : s.accepter = .ended
    · have hstarted : s.fastcgi.pc ≠ .unborn := fun hw => by simpa [ha] using h.unborn.1 hw
      by_cases hw : s.fastcgi.pc = .ended
      · have hexit := (h.fastcgi.exit hw).resolve_right (by simp [hm, MainPc.fastcgiGone])
        exact ⟨.waitFastcgiExit, ⟨hm, hexit⟩, rfl, rfl⟩
      · exact exists_fastcgiStep hstarted hw
    · exact exists_accepterStep h hborn ha

end Rank

/-! ### Runs -/

section Runs

variable [DecidableEq ι] {s t : State ι ρ}

/-- What is known once `http_mpm_close` has set both break events. -/
structure Told (s : State ι ρ) : Prop where
  orderly : Orderly s
  told : s.main.fastcgiTold = true

omit [DecidableEq ι] in
/-- What was told stays told. -/
theorem Told.next [DecidableEq ι] {l : Label ι ρ} (h : Told s) (hl : Enabled s l) :
    Told (next s l) :=
  ⟨step_orderly h.orderly hl, fastcgiTold_next hl h.told⟩

/-- **`http_mpm_close` comes to its end** by the steps of the three threads, as
each of them makes the rank smaller and short of the end one is enabled. -/
theorem close_ranking : (mpm ι ρ).Ranking Told (fun s => s.main = .closed) (fun _ _ => True)
    (fun _ l => l.ofClose) closeRank where
  keep s l h _ _ hl := h.next hl
  le s l h _ _ hl := by
    cases hc : l.ofClose with
    | true => exact Nat.le_of_lt (closeRank_next_lt h.orderly h.told hl hc)
    | false => exact Nat.le_of_eq (closeRank_next_of_not hc)
  lt s l h _ _ hl hc := closeRank_next_lt h.orderly h.told hl hc
  enabled s h hopen := by
    obtain ⟨l, hl, hc, -⟩ := exists_closing h.orderly h.told hopen
    exact ⟨l, hl, trivial, hc⟩

/-- In a run of the server both are told once main has come so far. -/
theorem run_told {tr : List (Label ι ρ)} (h : (mpm ι ρ).Run (init ι ρ) tr s)
    (htold : s.main.fastcgiTold = true) : Told s where
  orderly := Lib.Machine.run_induction (P := fun _ s => Orderly s) init_orderly
    (fun _ _ _ _ hu hl => step_orderly hu hl) h
  told := htold

/-- **`http_mpm_close` returns.**  From every reachable state in which both
break events were set, and in every run on from there, whatever the frontends
do: the main thread, the accepter and the worker make at most twenty-one steps
before it has returned, and as long as it has not, one of the three can make a
step, other than a wait that fails.  A callback of the worker is one step, so
each is taken to return; and the threads run, as `http_begin_thread` has started
them. -/
theorem close_terminates {tr tr' : List (Label ι ρ)} (h : (mpm ι ρ).Run (init ι ρ) tr s)
    (htold : s.main.fastcgiTold = true) (hrun : (mpm ι ρ).Run s tr' t) :
    ((mpm ι ρ).Along (fun u _ => u.main ≠ .closed) s tr' → tr'.countP Label.ofClose ≤ 21) ∧
      (t.main = .closed ∨ ∃ l, Enabled t l ∧ l.ofClose = true ∧ l.failsClose = false) := by
  have hs := run_told h htold
  constructor
  · intro hopen
    have hcount := close_ranking.count_le hs hrun (Lib.Machine.along_true s tr') hopen
    rw [Lib.Machine.countAlong_eq_countP] at hcount
    have hle := closeRank_le s
    omega
  · have ht : Told t := Lib.Machine.run_induction (P := fun _ t => Told t) hs
      (fun _ _ _ _ hu hl => hu.next hl) hrun
    by_cases hclosed : t.main = .closed
    · exact .inl hclosed
    · exact .inr (exists_closing ht.orderly ht.told hclosed)

/-- Satisfiability: the server is closed while a connection is idle. -/
theorem close_terminates_idleFirst :
    ((mpm Bool ℕ).Along (fun u _ => u.main ≠ .closed)
        ((mpm Bool ℕ).exec (init Bool ℕ) (idleFirst.take 6)) (idleFirst.drop 6) →
      (idleFirst.drop 6).countP Label.ofClose ≤ 21) ∧
    (((mpm Bool ℕ).exec (init Bool ℕ) idleFirst).main = .closed ∨
      ∃ l, Enabled ((mpm Bool ℕ).exec (init Bool ℕ) idleFirst) l ∧ l.ofClose = true ∧
        l.failsClose = false) :=
  close_terminates (Lib.Machine.run_iff_exec.2 ⟨by decide +kernel, rfl⟩) rfl
    (Lib.Machine.run_iff_exec.2 ⟨by decide +kernel, rfl⟩)

end Runs

end Mpm
end Dukserver
