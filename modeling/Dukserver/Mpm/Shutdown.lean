/-
# Closing the server

`libhttpd/http_mpm.c`, `http_mpm_close` against `_worker_accepter`, `_worker_fastcgi`
and `_worker_frontend`.  It waits for the accepter and for the worker and then deletes
`mutex_fastcgi` and the events.  Nobody waits for the frontends: one that is still in
`http_recv_request` goes on to take the mutex and to write to `*req`, a local of the
accepter that has ended.  Nor does it look at what `http_event_wait` returns: if a wait
fails, it goes on to delete what the thread still uses.

`Careful` is what the schedule has to do for the code: the accepter ends, and the mutex
is deleted, while nobody is on the way to use what then is gone, no frontend sets out for
it later, and a wait of `http_mpm_close` fails only once the thread it is for has ended.
The runs that do so use nothing that is gone (`close_usesLive`).
-/

import Dukserver.Mpm.Threads
import Mathlib.Data.Fintype.Basic

namespace Dukserver
namespace Mpm

variable {ι ρ : Type}

/-! ### What is gone, and who uses it -/

/-- Behind `http_event_wait(event_accepter_exit)`. -/
def MainPc.accepterGone : MainPc → Bool
  | .waitFastcgiExit | .deleteBreaks | .deleteMutex | .deleteFire | .deleteDone | .closed => true
  | _ => false

/-- Behind `http_event_wait(event_fastcgi_exit)`. -/
def MainPc.fastcgiGone : MainPc → Bool
  | .deleteBreaks | .deleteMutex | .deleteFire | .deleteDone | .closed => true
  | _ => false

/-- `mutex_fastcgi` is deleted. -/
def MainPc.mutexDeleted : MainPc → Bool
  | .deleteFire | .deleteDone | .closed => true
  | _ => false

/-- `event_fire` is deleted. -/
def MainPc.fireDeleted : MainPc → Bool
  | .deleteDone | .closed => true
  | _ => false

/-- `event_done` is deleted. -/
def MainPc.doneDeleted : MainPc → Bool
  | .closed => true
  | _ => false

/-- It reads or writes `*req` or `*res`. -/
def Label.usesSlots : Label ι ρ → Bool
  | .readReq | .writeRes | .publish .. | .readRes .. | .clearRes _ => true
  | _ => false

/-- A call of `http_mutex_take` or `http_mutex_give`. -/
def Label.usesMutex : Label ι ρ → Bool
  | .take _ | .takeFail _ | .give _ => true
  | _ => false

/-- It sets `event_fire` or waits for it. -/
def Label.usesFire : Label ι ρ → Bool
  | .setFire _ | .fireTaken | .fireTimeout => true
  | _ => false

/-- It sets `event_done` or waits for it. -/
def Label.usesDone : Label ι ρ → Bool
  | .setDone | .doneTaken _ | .doneFail _ => true
  | _ => false

/-- The step uses nothing that is gone. -/
def UsesLive (s : State ι ρ) (l : Label ι ρ) : Prop :=
  (l.usesSlots = true → s.accepter ≠ .ended) ∧
  (l.usesMutex = true → s.main.mutexDeleted = false) ∧
  (l.usesFire = true → s.main.fireDeleted = false) ∧
  (l.usesDone = true → s.main.doneDeleted = false)

instance (s : State ι ρ) (l : Label ι ρ) : Decidable (UsesLive s l) :=
  inferInstanceAs (Decidable (_ ∧ _ ∧ _ ∧ _))

/-- Nobody waits for what is deleted. -/
structure NoWaiter (s : State ι ρ) : Prop where
  take : s.main.mutexDeleted = true → ∀ i, (s.frontend i).pc ≠ .take
  fire : s.main.fireDeleted = true → s.fastcgi.pc ≠ .waitFire
  done : s.main.doneDeleted = true → ∀ i, (s.frontend i).pc ≠ .wait

/-! ### The condition -/

/-- Between `http_mutex_take` and the last access to a slot. -/
def FrontendPc.onSlots : FrontendPc → Bool
  | .publish | .fire | .wait | .readRes | .clearRes => true
  | _ => false

/-- Between taking `event_fire` and writing `*res`. -/
def FastcgiPc.onSlots : FastcgiPc → Bool
  | .readReq | .call | .process | .writeRes => true
  | _ => false

/-- Taking or giving `mutex_fastcgi`. -/
def FrontendPc.atMutex : FrontendPc → Bool
  | .take | .give => true
  | _ => false

/-- What keeps a step from leading to a use of what is gone. -/
def Careful (s : State ι ρ) : Label ι ρ → Prop
  | .accepterEnd => s.eventFire = 0 ∧ s.fastcgi.pc.onSlots = false ∧
      ∀ i, (s.frontend i).pc.onSlots = false
  | .take _ => s.accepter ≠ .ended
  | .deleteMutex => ∀ i, (s.frontend i).pc.atMutex = false
  | .recv _ true => s.main.mutexDeleted = false
  | .accepterExitFail => s.accepter = .ended
  | .fastcgiExitFail => s.fastcgi.pc = .ended
  | _ => True

instance [Fintype ι] (s : State ι ρ) (l : Label ι ρ) : Decidable (Careful s l) :=
  match l with
  | .accepterEnd =>
    inferInstanceAs (Decidable (_ ∧ _ ∧ ∀ i, (s.frontend i).pc.onSlots = false))
  | .take _ => inferInstanceAs (Decidable (s.accepter ≠ .ended))
  | .deleteMutex => inferInstanceAs (Decidable (∀ i, (s.frontend i).pc.atMutex = false))
  | .recv _ true => inferInstanceAs (Decidable (s.main.mutexDeleted = false))
  | .accepterExitFail => inferInstanceAs (Decidable (s.accepter = .ended))
  | .fastcgiExitFail => inferInstanceAs (Decidable (s.fastcgi.pc = .ended))
  | .start | .setBreakAccepter | .setBreakFastcgi | .waitAccepterExit | .waitFastcgiExit
  | .deleteBreaks | .deleteFire | .deleteDone | .beginFastcgi | .pollAccepter | .accept _
  | .testBreak | .initializeCb | .pollFastcgi | .fireTimeout | .fireTaken | .readReq | .call _
  | .ret .. | .writeRes | .setDone | .finializeCb | .fastcgiEnd | .recv _ false | .takeFail _
  | .publish .. | .setFire _ | .doneTaken _ | .doneFail _ | .readRes .. | .clearRes _ | .give _
  | .answer _ | .delete .. | .close _ => isTrue trivial

/-! ### Whom `http_mpm_close` has waited for -/

/-- The exit events are set by threads that have ended. -/
structure Exits (s : State ι ρ) : Prop where
  start : s.main = .start → s.accepter = .unborn
  accepter : 0 < s.eventAccepterExit ∨ s.main.accepterGone = true → s.accepter = .ended
  fastcgi : 0 < s.eventFastcgiExit ∨ s.main.fastcgiGone = true → s.fastcgi.pc = .ended

/-- Main waits for the worker behind its wait for the accepter. -/
theorem MainPc.accepterGone_of_fastcgiGone {pc : MainPc} (h : pc.fastcgiGone = true) :
    pc.accepterGone = true := by
  cases pc <;> first | rfl | cases h

/-- It deletes the mutex behind both waits. -/
theorem MainPc.fastcgiGone_of_mutexDeleted {pc : MainPc} (h : pc.mutexDeleted = true) :
    pc.fastcgiGone = true := by
  cases pc <;> first | rfl | cases h

/-- And `event_fire` behind the mutex. -/
theorem MainPc.mutexDeleted_of_fireDeleted {pc : MainPc} (h : pc.fireDeleted = true) :
    pc.mutexDeleted = true := by
  cases pc <;> first | rfl | cases h

/-- So it does with `event_done`. -/
theorem MainPc.mutexDeleted_of_doneDeleted {pc : MainPc} (h : pc.doneDeleted = true) :
    pc.mutexDeleted = true := by
  cases pc <;> first | rfl | cases h

section Exits

variable {s t : State ι ρ} {l : Label ι ρ}

/-- Before the mutex is deleted, both threads have ended: each wait was answered
by its thread, or failed when that had ended. -/
theorem Exits.ended (h : Exits s) (hm : s.main.mutexDeleted = true) :
    s.accepter = .ended ∧ s.fastcgi.pc = .ended := by
  have hgone := MainPc.fastcgiGone_of_mutexDeleted hm
  exact ⟨h.accepter (.inr (MainPc.accepterGone_of_fastcgiGone hgone)), h.fastcgi (.inr hgone)⟩

/-- What main knows of the threads that have ended depends on these parts of the
state only. -/
theorem Exits.congr (h : Exits s) (hm : t.main = s.main) (ha : t.accepter = s.accepter)
    (hw : t.fastcgi.pc = s.fastcgi.pc) (hae : t.eventAccepterExit = s.eventAccepterExit)
    (hfe : t.eventFastcgiExit = s.eventFastcgiExit) : Exits t := by
  obtain ⟨h₁, h₂, h₃⟩ := h
  constructor <;> simpa only [hm, ha, hw, hae, hfe]

/-- The main thread goes on, past a wait only if the thread of it has ended.
Neither thread starts again, so what was known of them stays. -/
theorem Exits.mainGoto (h : Exits s) (hstart : t.main ≠ .start)
    (hacc : t.main.accepterGone = true → s.accepter = .ended)
    (hfast : t.main.fastcgiGone = true → s.fastcgi.pc = .ended)
    (ha : t.accepter = s.accepter) (hw : t.fastcgi.pc = s.fastcgi.pc)
    (hae : t.eventAccepterExit ≤ s.eventAccepterExit)
    (hfe : t.eventFastcgiExit ≤ s.eventFastcgiExit) : Exits t where
  start := fun hs => absurd hs hstart
  accepter := fun hgone => by
    rw [ha]
    exact hgone.elim (fun hpos => h.accepter (.inl (hpos.trans_le hae))) hacc
  fastcgi := fun hgone => by
    rw [hw]
    exact hgone.elim (fun hpos => h.fastcgi (.inl (hpos.trans_le hfe))) hfast

/-- The accepter goes on, and has not ended yet.  So its exit event is not set,
and main has not passed the wait for it. -/
theorem Exits.accepterGoto (h : Exits s) (hs : s.accepter ≠ .unborn ∧ s.accepter ≠ .ended)
    (hm : t.main = s.main) (hw : t.fastcgi.pc = s.fastcgi.pc)
    (hae : t.eventAccepterExit = s.eventAccepterExit)
    (hfe : t.eventFastcgiExit = s.eventFastcgiExit) : Exits t where
  start := fun hstart => absurd (h.start (hm.symm.trans hstart)) hs.1
  accepter := fun hgone => absurd (h.accepter (by rwa [hm, hae] at hgone)) hs.2
  fastcgi := fun hgone => by rw [hw]; exact h.fastcgi (by rwa [hm, hfe] at hgone)

/-- The worker goes on, and has not ended yet.  So main has not passed the wait
for it either. -/
theorem Exits.fastcgiGoto (h : Exits s) (hs : s.fastcgi.pc ≠ .ended)
    (hm : t.main = s.main) (ha : t.accepter = s.accepter)
    (hae : t.eventAccepterExit = s.eventAccepterExit)
    (hfe : t.eventFastcgiExit = s.eventFastcgiExit) : Exits t where
  start := fun hstart => by rw [ha]; exact h.start (hm.symm.trans hstart)
  accepter := fun hgone => by rw [ha]; exact h.accepter (by rwa [hm, hae] at hgone)
  fastcgi := fun hgone => absurd (h.fastcgi (by rwa [hm, hfe] at hgone)) hs

variable [DecidableEq ι]

/-- **No thread comes back**, and each exit event is set by its own.  A wait
that fails is careful if the thread has ended all the same. -/
theorem step_exits (h : Exits s) (hc : Careful s l) (hl : Enabled s l) : Exits (next s l) := by
  by_cases hw : l.ofFastcgi = true ∧ l ≠ .beginFastcgi
  · obtain ⟨hm, ha, -, hae, hfe⟩ := next_of_fastcgi (s := s) hw.1 hw.2
    by_cases hend : l = .fastcgiEnd
    · subst hend
      exact ⟨h.start, h.accepter, fun _ => rfl⟩
    · exact h.fastcgiGoto (fastcgi_begun hl hw.1 hw.2).2.1 hm ha hae (hfe hend)
  cases l with
  | start =>
    refine ⟨(fun hm => by cases hm), ?_, ?_⟩
    · rintro (hpos | hgone)
      · have hended := h.accepter (.inl hpos)
        rw [h.start hl] at hended
        cases hended
      · cases hgone
    · rintro (hpos | hgone)
      · exact h.fastcgi (.inl hpos)
      · cases hgone
  | setBreakAccepter | setBreakFastcgi =>
    exact h.mainGoto (fun hm => by cases hm) (fun hgone => by cases hgone)
      (fun hgone => by cases hgone) rfl rfl le_rfl le_rfl
  | waitAccepterExit =>
    exact h.mainGoto (fun hm => by cases hm) (fun _ => h.accepter (.inl hl.2))
      (fun hgone => by cases hgone) rfl rfl (Nat.sub_le _ _) le_rfl
  | accepterExitFail =>
    exact h.mainGoto (fun hm => by cases hm) (fun _ => hc) (fun hgone => by cases hgone) rfl rfl
      le_rfl le_rfl
  | fastcgiExitFail =>
    have hm : s.main = .waitFastcgiExit := hl
    exact h.mainGoto (fun hm => by cases hm) (fun _ => h.accepter (.inr (by rw [hm]; rfl)))
      (fun _ => hc) rfl rfl le_rfl le_rfl
  | waitFastcgiExit =>
    have hm : s.main = .waitFastcgiExit := hl.1
    exact h.mainGoto (fun hm => by cases hm) (fun _ => h.accepter (.inr (by rw [hm]; rfl)))
      (fun _ => h.fastcgi (.inl hl.2)) rfl rfl le_rfl (Nat.sub_le _ _)
  | deleteBreaks | deleteMutex | deleteFire | deleteDone =>
    have hm : s.main = _ := hl
    exact h.mainGoto (fun hm => by cases hm) (fun _ => h.accepter (.inr (by rw [hm]; rfl)))
      (fun _ => h.fastcgi (.inr (by rw [hm]; rfl))) rfl rfl le_rfl le_rfl
  | beginFastcgi =>
    obtain ⟨ha, hw⟩ := hl
    refine ⟨fun hm => ?_, fun hgone => ?_, fun hgone => ?_⟩
    · have hunborn := h.start hm
      rw [ha] at hunborn
      cases hunborn
    · have hended := h.accepter hgone
      rw [ha] at hended
      cases hended
    · have hended := h.fastcgi hgone
      rw [hw] at hended
      cases hended
  | pollAccepter =>
    have ha : s.accepter = .poll := hl
    have hs : s.accepter ≠ .unborn ∧ s.accepter ≠ .ended := by rw [ha]; decide
    simp only [next]
    split <;> exact h.accepterGoto hs rfl rfl rfl rfl
  | accept conn =>
    have ha := accepter_of_accept hl
    have hs : s.accepter ≠ .unborn ∧ s.accepter ≠ .ended := by rw [ha]; decide
    cases conn <;> exact h.accepterGoto hs rfl rfl rfl rfl
  | accepterEnd =>
    have ha : s.accepter = .exit := hl
    refine ⟨fun hm => ?_, fun _ => rfl, h.fastcgi⟩
    have hunborn := h.start hm
    rw [ha] at hunborn
    cases hunborn
  | testBreak | pollFastcgi | initializeCb | fireTimeout | readReq | writeRes | setDone
  | finializeCb | fireTaken | call _ | ret _ _ | fastcgiEnd =>
    exact absurd ⟨rfl, fun hl => by cases hl⟩ hw
  | recv i got => cases got <;> exact h.congr rfl rfl rfl rfl rfl
  | _ => exact h.congr rfl rfl rfl rfl rfl

omit [DecidableEq ι] in
/-- At the start nobody has ended. -/
theorem init_exits : Exits (init ι ρ) where
  start := fun _ => rfl
  accepter := fun h => by rcases h with h | h <;> cases h
  fastcgi := fun h => by rcases h with h | h <;> cases h

end Exits

/-! ### Nobody is left at what is gone -/

/-- Nobody is on the way to a slot after the accepter has ended, or at the mutex
after it was deleted. -/
structure Closing (s : State ι ρ) : Prop where
  fire : s.accepter = .ended → s.eventFire = 0
  fastcgi : s.accepter = .ended → s.fastcgi.pc.onSlots = false
  frontend : s.accepter = .ended → ∀ i, (s.frontend i).pc.onSlots = false
  mutex : s.main.mutexDeleted = true → ∀ i, (s.frontend i).pc.atMutex = false

section Closing

variable {s t : State ι ρ} {l : Label ι ρ}

/-- Before the accepter ends there is nothing to keep. -/
theorem Closing.of_running (he : Exits s) (ha : s.accepter ≠ .ended) : Closing s where
  fire := fun hend => absurd hend ha
  fastcgi := fun hend => absurd hend ha
  frontend := fun hend => absurd hend ha
  mutex := fun hm => absurd (he.ended hm).1 ha

/-- Who is at what may be gone depends on these parts of the state only.  Steps
that leave them alone keep it. -/
theorem Closing.congr (h : Closing s) (hm : t.main.mutexDeleted = true → s.main.mutexDeleted = true)
    (ha : t.accepter = s.accepter) (hf : t.eventFire = s.eventFire)
    (hw : t.fastcgi.pc = s.fastcgi.pc) (hi : t.frontend = s.frontend) : Closing t where
  fire := by rw [ha, hf]; exact h.fire
  fastcgi := by rw [ha, hw]; exact h.fastcgi
  frontend := by rw [ha, hi]; exact h.frontend
  mutex := by rw [hi]; exact fun hgone => h.mutex (hm hgone)

/-- The worker goes on, but not to the slots, which are locals of the accepter. -/
theorem Closing.fastcgiGoto (h : Closing s)
    (hw : s.accepter = .ended → t.fastcgi.pc.onSlots = false) (hm : t.main = s.main)
    (ha : t.accepter = s.accepter) (hf : t.eventFire ≤ s.eventFire)
    (hi : t.frontend = s.frontend) : Closing t where
  fire := fun hend => Nat.eq_zero_of_le_zero (hf.trans_eq (h.fire (ha.symm.trans hend)))
  fastcgi := fun hend => hw (ha.symm.trans hend)
  frontend := by rw [ha, hi]; exact h.frontend
  mutex := by rw [hm, hi]; exact h.mutex

/-- While a frontend is on the slots, nothing is gone. -/
theorem Closing.running (h : Closing s) {i : ι} (hp : (s.frontend i).pc.onSlots = true) :
    s.accepter ≠ .ended := fun hend => by
  rw [h.frontend hend i] at hp
  exact Bool.false_ne_true hp

/-- While one is at the mutex, it is there. -/
theorem Closing.mutexLive (h : Closing s) {i : ι} (hp : (s.frontend i).pc.atMutex = true) :
    s.main.mutexDeleted = false := by
  by_contra hgone
  rw [h.mutex (Bool.eq_true_of_not_eq_false hgone) i] at hp
  exact Bool.false_ne_true hp

/-- Nobody waits for what is deleted: who would is at the slots or at the mutex. -/
theorem Closing.noWaiter (he : Exits s) (h : Closing s) : NoWaiter s where
  take := fun hgone i hp => by
    rw [h.mutexLive (i := i) (by rw [hp]; rfl)] at hgone
    cases hgone
  fire := fun hgone hp => by
    rw [(he.ended (MainPc.mutexDeleted_of_fireDeleted hgone)).2] at hp
    cases hp
  done := fun hgone i hp =>
    h.running (i := i) (by rw [hp]; rfl) (he.ended (MainPc.mutexDeleted_of_doneDeleted hgone)).1

/-- A thread that uses something is at it, so it is there: the slots belong to
the accepter, which has not ended, and the mutex is not deleted. -/
theorem Closing.usesLive (he : Exits s) (h : Closing s) (hl : Enabled s l) : UsesLive s l := by
  refine ⟨fun hu => ?_, fun hu => ?_, fun hu => ?_, fun hu => ?_⟩
  · cases l with
    | readReq | writeRes =>
      intro hend
      have hw := h.fastcgi hend
      rw [show s.fastcgi.pc = _ from hl] at hw
      cases hw
    | publish i _ | readRes i _ _ => exact h.running (i := i) (by rw [hl.1]; rfl)
    | clearRes i =>
      have hp : (s.frontend i).pc = .clearRes := hl
      exact h.running (i := i) (by rw [hp]; rfl)
    | _ => cases hu
  · cases l with
    | take i => exact h.mutexLive (i := i) (by rw [hl.1]; rfl)
    | takeFail i | give i =>
      have hp : (s.frontend i).pc = _ := hl
      exact h.mutexLive (i := i) (by rw [hp]; rfl)
    | _ => cases hu
  · by_contra hgone
    have hdeleted := MainPc.mutexDeleted_of_fireDeleted (Bool.eq_true_of_not_eq_false hgone)
    have hended := he.ended hdeleted
    cases l with
    | setFire i =>
      have hp : (s.frontend i).pc = .fire := hl
      exact h.running (i := i) (by rw [hp]; rfl) hended.1
    | fireTaken =>
      rw [hl.1] at hended
      cases hended.2
    | fireTimeout =>
      rw [show s.fastcgi.pc = .waitFire from hl] at hended
      cases hended.2
    | _ => cases hu
  · by_contra hgone
    have hdeleted := MainPc.mutexDeleted_of_doneDeleted (Bool.eq_true_of_not_eq_false hgone)
    have hended := he.ended hdeleted
    cases l with
    | setDone =>
      rw [show s.fastcgi.pc = .setDone from hl] at hended
      cases hended.2
    | doneTaken i => exact h.running (i := i) (by rw [hl.1]; rfl) hended.1
    | doneFail i =>
      have hp : (s.frontend i).pc = .wait := hl
      exact h.running (i := i) (by rw [hp]; rfl) hended.1
    | _ => cases hu

variable [DecidableEq ι]

/-- A frontend goes on, but not to what is gone, and sets no event that the
worker would follow there. -/
theorem Closing.frontendGoto (h : Closing s) (i : ι) {f : Frontend ρ}
    (hi : t.frontend = Function.update s.frontend i f)
    (hslots : s.accepter = .ended → f.pc.onSlots = false ∧ t.eventFire = s.eventFire)
    (hmutex : s.main.mutexDeleted = true → f.pc.atMutex = false)
    (hm : t.main = s.main) (ha : t.accepter = s.accepter)
    (hw : t.fastcgi.pc = s.fastcgi.pc) : Closing t where
  fire := fun hend => by
    rw [ha] at hend
    rw [(hslots hend).2]
    exact h.fire hend
  fastcgi := by rw [ha, hw]; exact h.fastcgi
  frontend := fun hend j => by
    rw [ha] at hend
    rw [hi, Function.update_apply]
    split_ifs
    · exact (hslots hend).1
    · exact h.frontend hend j
  mutex := fun hgone j => by
    rw [hm] at hgone
    rw [hi, Function.update_apply]
    split_ifs
    · exact hmutex hgone
    · exact h.mutex hgone j

/-- **Careful steps lead nobody to what is gone**: the steps that would are
those that the condition leaves out, and all others keep their thread where it
may be. -/
theorem step_closing (he : Exits s) (h : Closing s) (hc : Careful s l) (hl : Enabled s l) :
    Closing (next s l) := by
  have he' := step_exits he hc hl
  cases l with
  | start => exact .of_running he' (by simp [next])
  | setBreakAccepter | setBreakFastcgi | waitAccepterExit | accepterExitFail | waitFastcgiExit
  | fastcgiExitFail | deleteBreaks =>
    exact h.congr (fun hgone => by cases hgone) rfl rfl rfl rfl
  | deleteMutex => exact ⟨h.fire, h.fastcgi, h.frontend, fun _ => hc⟩
  | deleteFire | deleteDone =>
    have hm : s.main = _ := hl
    exact h.congr (fun _ => by rw [hm]; rfl) rfl rfl rfl rfl
  | beginFastcgi => exact .of_running he' (by simp [next])
  | pollAccepter =>
    refine .of_running he' ?_
    simp only [next]
    split <;> simp
  | accept conn =>
    refine .of_running he' ?_
    cases conn <;> simp [next]
  | accepterEnd => exact ⟨fun _ => hc.1, fun _ => hc.2.1, fun _ => hc.2.2, h.mutex⟩
  | testBreak | pollFastcgi =>
    simp only [next]
    split
    · exact h.fastcgiGoto (fun _ => rfl) rfl rfl le_rfl rfl
    · split <;> exact h.fastcgiGoto (fun _ => rfl) rfl rfl le_rfl rfl
  | initializeCb | fireTimeout | writeRes | setDone | finializeCb | fastcgiEnd =>
    exact h.fastcgiGoto (fun _ => rfl) rfl rfl le_rfl rfl
  | fireTaken =>
    refine h.fastcgiGoto (fun hend => ?_) rfl rfl (Nat.sub_le _ _) rfl
    exact absurd (h.fire hend) hl.2.ne'
  | readReq =>
    have hw : s.fastcgi.pc = .readReq := hl
    refine h.fastcgiGoto (fun hend => ?_) rfl rfl le_rfl rfl
    exact absurd (h.fastcgi hend) (by rw [hw]; decide)
  | call _ | ret _ _ =>
    refine h.fastcgiGoto (fun hend => ?_) rfl rfl le_rfl rfl
    exact absurd (h.fastcgi hend) (by rw [hl.1]; decide)
  | recv i got =>
    cases got with
    | true =>
      exact h.frontendGoto i rfl (fun _ => ⟨rfl, rfl⟩) (fun hgone => by
        rw [show s.main.mutexDeleted = false from hc] at hgone
        cases hgone) rfl rfl rfl
    | false => exact h.frontendGoto i rfl (fun _ => ⟨rfl, rfl⟩) (fun _ => rfl) rfl rfl rfl
  | take i => exact h.frontendGoto i rfl (fun hend => absurd hend hc) (fun _ => rfl) rfl rfl rfl
  | takeFail i | give i | answer i | close i =>
    exact h.frontendGoto i rfl (fun _ => ⟨rfl, rfl⟩) (fun _ => rfl) rfl rfl rfl
  | publish i _ | doneTaken i | readRes i _ _ =>
    have hrun := h.running (i := i) (by rw [hl.1]; rfl)
    exact h.frontendGoto i rfl (fun hend => absurd hend hrun) (fun _ => rfl) rfl rfl rfl
  | setFire i =>
    have hp : (s.frontend i).pc = .fire := hl
    have hrun := h.running (i := i) (by rw [hp]; rfl)
    exact h.frontendGoto i rfl (fun hend => absurd hend hrun) (fun _ => rfl) rfl rfl rfl
  | doneFail i | clearRes i =>
    have hp : (s.frontend i).pc = _ := hl
    have hrun := h.running (i := i) (by rw [hp]; rfl)
    exact h.frontendGoto i rfl (fun hend => absurd hend hrun)
      (fun hgone => absurd (he.ended hgone).1 hrun) rfl rfl rfl
  | delete i _ http10 =>
    refine h.frontendGoto i rfl (fun _ => ⟨?_, rfl⟩) (fun _ => ?_) rfl rfl rfl <;> simp only <;>
      split <;> rfl

/-- **Nothing is used that is gone**, in every run whose steps are careful: no
step accesses a slot after the accepter has ended or uses the mutex or an event
after it was deleted, and nobody waits for one.  `Careful` speaks of the
schedule and of the waits of `http_mpm_close`, of nothing the program itself
looks at, so it cannot keep to it. -/
theorem close_usesLive {tr : List (Label ι ρ)} (h : (mpm ι ρ).Run (init ι ρ) tr s)
    (hc : (mpm ι ρ).Along Careful (init ι ρ) tr) :
    (mpm ι ρ).Along UsesLive (init ι ρ) tr ∧ NoWaiter s := by
  have hinit : Closing (init ι ρ) := .of_running init_exits (by simp [init])
  obtain ⟨huses, he, hclosing⟩ := Lib.Machine.along_of_invariant
    (I := fun s => Exits s ∧ Closing s)
    (fun u l hu hcare hl => ⟨step_exits hu.1 hcare hl, step_closing hu.1 hu.2 hcare hl⟩)
    (fun u l hu hl => hu.2.usesLive hu.1 hl) ⟨init_exits, hinit⟩ h hc
  exact ⟨huses, hclosing.noWaiter he⟩

/-- A connection is served and closed, and then the server. -/
def servedFirst : List (Label Bool ℕ) :=
  [.start, .beginFastcgi, .testBreak, .initializeCb, .pollAccepter, .accept (some true),
   .recv true true, .take true, .publish true (some 0), .setFire true, .pollFastcgi, .fireTaken,
   .readReq, .call (some 0), .ret (some 0) (some 7), .writeRes, .setDone, .doneTaken true,
   .readRes true (some 0) (some 7), .clearRes true, .give true, .answer true,
   .delete true (some 0) false, .setBreakAccepter, .setBreakFastcgi, .pollAccepter, .accepterEnd,
   .recv true false, .pollFastcgi, .finializeCb, .testBreak, .fastcgiEnd, .waitAccepterExit,
   .waitFastcgiExit, .deleteBreaks, .deleteMutex, .close true, .deleteFire, .deleteDone]

/-- Satisfiability. -/
theorem close_usesLive_servedFirst :
    (mpm Bool ℕ).Along UsesLive (init Bool ℕ) servedFirst ∧
      NoWaiter ((mpm Bool ℕ).exec (init Bool ℕ) servedFirst) :=
  close_usesLive (Lib.Machine.run_iff_exec.2 ⟨by decide +kernel, rfl⟩) (by decide +kernel)

/-- A connection is idle when the server is closed, and sends a request then. -/
def idleFirst : List (Label Bool ℕ) :=
  [.start, .beginFastcgi, .pollAccepter, .accept (some true), .setBreakAccepter,
   .setBreakFastcgi, .pollAccepter, .accepterEnd, .testBreak, .fastcgiEnd, .waitAccepterExit,
   .waitFastcgiExit, .deleteBreaks, .deleteMutex, .recv true true, .take true,
   .publish true (some 0)]

/-- The request is published to a slot that is gone, under a mutex that is
deleted. -/
theorem close_usesLive_idleFirst :
    ∃ s, (mpm Bool ℕ).Run (init Bool ℕ) idleFirst s ∧
      ¬(mpm Bool ℕ).Along UsesLive (init Bool ℕ) idleFirst :=
  ⟨_, Lib.Machine.run_iff_exec.2 ⟨by decide +kernel, rfl⟩, by decide +kernel⟩

end Closing

end Mpm
end Dukserver
