/-
# Processes

`duktape/subprocess_linux.c`, `pswait` and `psclose`, and the methods of process objects in
`duktape/dukpylib.c` (lines 767-907) that call them.  A call answers with its result, the
object as it leaves it, and the calls of the kernel and of `free` that it has made; what the
kernel answers is an argument of it.

Whether a process object has been waited for is in `ps->pid`, and whether it has been released
is in `__handler__`, which the script object has.  `Phase` puts the two together, and
`psCall_phase` says what each call does in each phase.  From it follow what a whole life of an
object releases (`lifetime_releases`), and what repeated waits return (`waitsAgree_iff`).
-/

import Dukserver.Http.Common
import Dukserver.Lib.Outcome
import Dukserver.Wsgi.Duk

namespace Dukserver
namespace Pylib

open Http (Fault)
open Lib (Bytes)
open Wsgi (DukError DukValue)

/-- `subprocess_t`.  `proc` is `pid` again. -/
structure Subprocess where
  pid : ℕ
  stdinFileno : ℕ
  stdoutFileno : ℕ
  deriving DecidableEq, Repr

/-- What is called outside of the server. -/
inductive SysCall
  | waitpid (pid : ℕ)
  | close (fd : ℕ)
  | kill (pid sig : ℕ)
  | free
  | write (fd : ℕ) (buf : Bytes)
  | read (fd size : ℕ)
  deriving DecidableEq, Repr

def SIGINT : ℕ := 2
def SIGTERM : ℕ := 15
def SIGABRT : ℕ := 6
def SIGKILL : ℕ := 9

/-- What `pswait` returns for what `waitpid` answers; `none` is -1. -/
def returncodeOf : Option ℕ → ℤ
  | none => -1
  | some status => ((status / 2 ^ 8 : ℕ) : ℤ).bmod (2 ^ 8)

/-- `pswait`. -/
def pswait (ps : Subprocess) (waitpid : ℕ → Option ℕ) : ℤ × Subprocess × List SysCall :=
  if 0 < ps.pid then
    (returncodeOf (waitpid ps.pid), { ps with pid := 0 },
      [.waitpid ps.pid, .close ps.stdinFileno, .close ps.stdoutFileno])
  else (0, ps, [])

/-- The loop of `psclose`; `gone i` is that `kill(pid, 0)` answers -1 in pass
`i`. -/
def killLoop (pid : ℕ) (gone : ℕ → Bool) : ℕ → List ℕ → List SysCall
  | _, [] => []
  | i, sig :: signals =>
    .kill pid 0 :: if gone i then [] else .kill pid sig :: killLoop pid gone (i + 1) signals

/-- `psclose`. -/
def psclose (ps : Subprocess) (gone : ℕ → Bool) : List SysCall :=
  (if 0 < ps.pid then
    .close ps.stdinFileno :: .close ps.stdoutFileno ::
      killLoop ps.pid gone 0 [SIGINT, SIGTERM, SIGABRT, SIGKILL]
  else []) ++ [.free]

/-- The object that `_ps_open` makes.  `__handler__` is a pointer to `block`, or
undefined; `block` is gone when it has been freed.  `stdin` and `stdout` are the
`__handler__` of the objects of these names. -/
structure ProcessObject where
  handler : Bool
  block : Option Subprocess
  returncode : Option ℤ
  stdin : ℕ
  stdout : ℕ
  deriving DecidableEq, Repr

/-- `_ps_open`, the object. -/
def psObject (ps : Subprocess) : ProcessObject :=
  ⟨true, some ps, none, ps.stdinFileno, ps.stdoutFileno⟩

/-- What a call returns, the object after it, and what it has called. -/
structure PsOutcome where
  result : Except DukError (Option ℤ)
  obj : ProcessObject
  calls : List SysCall

def missingHandler : DukError := ⟨.internalError, "missing '__handler__'!"⟩

/-- `_psobj_wait`. -/
def psobjWait (o : ProcessObject) (waitpid : ℕ → Option ℕ) : Except Fault PsOutcome :=
  if !o.handler then .ok ⟨.error missingHandler, o, []⟩
  else match o.block with
    | none => .error .useAfterFree
    | some ps =>
      let (returncode, ps, calls) := pswait ps waitpid
      .ok ⟨.ok (some returncode),
        { o with block := some ps, returncode := some returncode }, calls⟩

/-- `_psobj_close`. -/
def psobjClose (o : ProcessObject) (gone : ℕ → Bool) : Except Fault PsOutcome :=
  if !o.handler then .ok ⟨.error missingHandler, o, []⟩
  else match o.block with
    | none => .error .useAfterFree
    | some ps => .ok ⟨.ok none, { o with handler := false, block := none }, psclose ps gone⟩

/-- `_psobj_finalizer`. -/
def psobjFinalizer (o : ProcessObject) (gone : ℕ → Bool) : Except Fault PsOutcome :=
  if !o.handler then .ok ⟨.ok none, o, []⟩
  else match o.block with
    | none => .error .useAfterFree
    | some ps => .ok ⟨.ok none, { o with block := none }, psclose ps gone⟩

/-- What a script calls on a process object, with the answers of the kernel. -/
inductive PsCall
  | wait (waitpid : ℕ → Option ℕ)
  | close (gone : ℕ → Bool)

def psCall (o : ProcessObject) : PsCall → Except Fault PsOutcome
  | .wait waitpid => psobjWait o waitpid
  | .close gone => psobjClose o gone

/-! ### The phases of an object -/

/-- Where an object is in its life. -/
inductive Phase
  | running
  | waited
  | released
  deriving DecidableEq, Repr

/-- The phase after a call. -/
def Phase.after : Phase → PsCall → Phase
  | .running, .wait _ => .waited
  | .waited, .wait _ => .waited
  | .released, .wait _ => .released
  | _, .close _ => .released

/-- What a call of the phase calls. -/
def Phase.calls (ps : Subprocess) : Phase → PsCall → List SysCall
  | .running, .wait _ => [.waitpid ps.pid, .close ps.stdinFileno, .close ps.stdoutFileno]
  | .running, .close gone => psclose ps gone
  | .waited, .close _ => [.free]
  | _, _ => []

/-- What `__handler__` and the block are in a phase. -/
def Phase.holds (ps : Subprocess) : Phase → Bool × Option Subprocess
  | .running => (true, some ps)
  | .waited => (true, some { ps with pid := 0 })
  | .released => (false, none)

/-- The object of `ps` is in a phase. -/
structure InPhase (ps : Subprocess) (ph : Phase) (o : ProcessObject) : Prop where
  state : (o.handler, o.block) = ph.holds ps
  stdin : o.stdin = ps.stdinFileno
  stdout : o.stdout = ps.stdoutFileno

section Phases

variable {ps : Subprocess} {ph : Phase} {o : ProcessObject} {waitpid : ℕ → Option ℕ}
  {gone : ℕ → Bool}

/-- A new object runs: it has its handler and its block. -/
theorem inPhase_psObject (ps : Subprocess) : InPhase ps .running (psObject ps) := ⟨rfl, rfl, rfl⟩

/-- The handler of the script object, in each phase. -/
theorem InPhase.handler (h : InPhase ps ph o) : o.handler = (ph.holds ps).1 :=
  congrArg Prod.fst h.state

/-- And its block. -/
theorem InPhase.block (h : InPhase ps ph o) : o.block = (ph.holds ps).2 :=
  congrArg Prod.snd h.state

/-- The first wait asks the kernel, forgets the pid and closes both pipes,
whatever the kernel answers. -/
theorem pswait_running (hpid : 0 < ps.pid) : pswait ps waitpid =
    (returncodeOf (waitpid ps.pid), { ps with pid := 0 },
      [.waitpid ps.pid, .close ps.stdinFileno, .close ps.stdoutFileno]) := if_pos hpid

/-- A further one finds no pid, makes no call and returns 0. -/
theorem pswait_waited : pswait { ps with pid := 0 } waitpid = (0, { ps with pid := 0 }, []) := rfl

/-- What the first wait does: the code of the child is returned and stored.
Both descriptors are closed with it, and `ps->pid` is 0 from then on. -/
theorem psobjWait_running (hpid : 0 < ps.pid) (h : InPhase ps .running o) :
    psobjWait o waitpid = .ok ⟨.ok (some (returncodeOf (waitpid ps.pid))),
      { o with block := some { ps with pid := 0 },
               returncode := some (returncodeOf (waitpid ps.pid)) },
      [.waitpid ps.pid, .close ps.stdinFileno, .close ps.stdoutFileno]⟩ := by
  rw [psobjWait, h.handler, h.block]
  simp only [Phase.holds, pswait_running hpid, Bool.not_true, Bool.false_eq_true, if_false]

/-- What each further wait does: the 0 of `pswait` is returned, and stored over
the code that was there. -/
theorem psobjWait_waited (h : InPhase ps .waited o) :
    psobjWait o waitpid = .ok ⟨.ok (some 0), { o with returncode := some 0 }, []⟩ := by
  rw [psobjWait, h.handler, h.block]
  simp only [Phase.holds, pswait_waited, Bool.not_true, Bool.false_eq_true, if_false]

/-- A wait behind a close has no handler any more and throws. -/
theorem psobjWait_released (h : InPhase ps .released o) :
    psobjWait o waitpid = .ok ⟨.error missingHandler, o, []⟩ :=
  if_pos (by rw [h.handler]; rfl)

/-- What a close does that releases: the script object loses its handler, so no
second call finds the block. -/
theorem psobjClose_ok {q : Subprocess} (hhandler : o.handler = true) (hblock : o.block = some q) :
    psobjClose o gone =
      .ok ⟨.ok none, { o with handler := false, block := none }, psclose q gone⟩ := by
  rw [psobjClose, hhandler, hblock]
  rfl

/-- **What each call does in each phase**: the phase it leads to, and the calls
of the kernel it makes on the way.  Only the first wait and the first close make
any. -/
theorem psCall_phase (hpid : 0 < ps.pid) (h : InPhase ps ph o) (c : PsCall) :
    ∃ r, psCall o c = .ok r ∧ InPhase ps (ph.after c) r.obj ∧ r.calls = ph.calls ps c := by
  cases ph with
  | running =>
    cases c with
    | wait waitpid =>
      refine ⟨_, psobjWait_running hpid h, ⟨?_, h.stdin, h.stdout⟩, rfl⟩
      rw [h.handler]
      rfl
    | close gone => exact ⟨_, psobjClose_ok h.handler h.block, ⟨rfl, h.stdin, h.stdout⟩, rfl⟩
  | waited =>
    cases c with
    | wait waitpid => exact ⟨_, psobjWait_waited h, ⟨h.state, h.stdin, h.stdout⟩, rfl⟩
    | close gone => exact ⟨_, psobjClose_ok h.handler h.block, ⟨rfl, h.stdin, h.stdout⟩, rfl⟩
  | released =>
    cases c with
    | wait waitpid => exact ⟨_, psobjWait_released h, h, rfl⟩
    | close gone => exact ⟨_, if_pos (by rw [h.handler]; rfl), h, rfl⟩

/-- What the finalizer does: a close, if there was none.  The object has given
its block back then, and a second run of it finds nothing. -/
theorem psobjFinalizer_phase (h : InPhase ps ph o) (gone : ℕ → Bool) :
    ∃ r, psobjFinalizer o gone = .ok r ∧ r.obj.block = none ∧
      r.calls = ph.calls ps (.close gone) := by
  cases ph with
  | running =>
    refine ⟨⟨.ok none, { o with block := none }, psclose ps gone⟩, ?_, rfl, rfl⟩
    rw [psobjFinalizer, h.handler, h.block]
    rfl
  | waited =>
    refine ⟨⟨.ok none, { o with block := none }, [.free]⟩, ?_, rfl, rfl⟩
    rw [psobjFinalizer, h.handler, h.block]
    rfl
  | released => exact ⟨_, if_pos (by rw [h.handler]; rfl), h.block, rfl⟩

end Phases

/-! ### What is released in a life -/

/-- The descriptors that are closed. -/
def closes (log : List SysCall) : List ℕ :=
  log.filterMap fun
    | .close fd => some fd
    | _ => none

/-- The calls of a script on an object, one after the other, with all that they
call. -/
def psCalls (s : ProcessObject × List SysCall) (c : PsCall) :
    Except Fault (ProcessObject × List SysCall) := do
  let r ← psCall s.1 c
  return (r.obj, s.2 ++ r.calls)

/-- What a process object calls from `_ps_open` to the end of its finalizer. -/
def lifetime (ps : Subprocess) (cs : List PsCall) (gone : ℕ → Bool) :
    Except Fault (List SysCall) := do
  let s ← cs.foldlM psCalls (psObject ps, [])
  let r ← psobjFinalizer s.1 gone
  return s.2 ++ r.calls

/-- What has been released when an object is in a phase. -/
def Phase.Released (ps : Subprocess) (log : List SysCall) : Phase → Prop
  | .running => closes log = [] ∧ log.count .free = 0
  | .waited => closes log = [ps.stdinFileno, ps.stdoutFileno] ∧ log.count .free = 0
  | .released => closes log = [ps.stdinFileno, ps.stdoutFileno] ∧ log.count .free = 1

section Lifetime

variable {ps : Subprocess} {ph : Phase} {log : List SysCall} {gone : ℕ → Bool}

/-- The loop of signals only calls `kill`. -/
theorem mem_killLoop {pid : ℕ} {i : ℕ} {signals : List ℕ} {call : SysCall}
    (h : call ∈ killLoop pid gone i signals) : ∃ sig, call = .kill pid sig := by
  induction signals generalizing i with
  | nil => exact absurd h List.not_mem_nil
  | cons sig signals ih =>
    rw [killLoop, List.mem_cons] at h
    split_ifs at h with hgone
    · exact ⟨0, h.resolve_right List.not_mem_nil⟩
    · rcases h with rfl | h
      · exact ⟨0, rfl⟩
      · rcases List.mem_cons.1 h with rfl | h
        · exact ⟨sig, rfl⟩
        · exact ih h

/-- The descriptors that are closed, one part of a log after the other. -/
theorem closes_append (log log' : List SysCall) :
    closes (log ++ log') = closes log ++ closes log' := List.filterMap_append

/-- The signals release nothing, however many of them are sent.  The descriptors
are closed before them, and the block is freed behind them. -/
theorem killLoop_released (pid : ℕ) (gone : ℕ → Bool) (i : ℕ) (signals : List ℕ) :
    closes (killLoop pid gone i signals) = [] ∧ (killLoop pid gone i signals).count .free = 0 := by
  constructor
  · refine List.filterMap_eq_nil_iff.2 fun call hcall => ?_
    obtain ⟨sig, rfl⟩ := mem_killLoop hcall
    rfl
  · refine List.count_eq_zero_of_not_mem fun hcall => ?_
    obtain ⟨sig, hsig⟩ := mem_killLoop hcall
    cases hsig

/-- A close of an object that was not waited for closes both pipes and frees the
block. -/
theorem psclose_released (hpid : 0 < ps.pid) (gone : ℕ → Bool) :
    closes (psclose ps gone) = [ps.stdinFileno, ps.stdoutFileno] ∧
      (psclose ps gone).count .free = 1 := by
  obtain ⟨hcloses, hfree⟩ := killLoop_released ps.pid gone 0 [SIGINT, SIGTERM, SIGABRT, SIGKILL]
  rw [psclose, if_pos hpid, closes_append, List.count_append]
  refine ⟨?_, by simpa using hfree⟩
  exact congrArg (fun l => ps.stdinFileno :: ps.stdoutFileno :: (l ++ [])) hcloses

/-- **A call releases what the next phase has released**, so over a life the log
and the phase agree. -/
theorem released_call (hpid : 0 < ps.pid) (h : ph.Released ps log) (c : PsCall) :
    (ph.after c).Released ps (log ++ ph.calls ps c) := by
  cases ph with
  | running =>
    obtain ⟨hcloses, hfree⟩ := h
    cases c with
    | wait waitpid =>
      refine ⟨?_, by simpa [Phase.calls] using hfree⟩
      rw [closes_append, hcloses]
      rfl
    | close gone =>
      obtain ⟨hcloses', hfree'⟩ := psclose_released hpid gone
      refine ⟨?_, ?_⟩
      · rw [closes_append, hcloses]
        exact hcloses'
      · rw [List.count_append, hfree]
        exact (Nat.zero_add _).trans hfree'
  | waited =>
    obtain ⟨hcloses, hfree⟩ := h
    cases c with
    | wait waitpid => simpa [Phase.calls, Phase.after, Phase.Released] using ⟨hcloses, hfree⟩
    | close gone =>
      refine ⟨?_, ?_⟩
      · rw [closes_append, hcloses]
        rfl
      · rw [List.count_append, hfree]
        rfl
  | released =>
    have hcalls : Phase.released.calls ps c = [] := by cases c <;> rfl
    have hafter : Phase.released.after c = .released := by cases c <;> rfl
    rwa [hcalls, hafter, List.append_nil]

/-- **Whatever a script calls on a process object, each of its descriptors is
closed once, its memory is freed once, and nothing uses that afterwards.** -/
theorem lifetime_releases (hpid : 0 < ps.pid) (cs : List PsCall) (gone : ℕ → Bool) :
    ∃ log, lifetime ps cs gone = .ok log ∧
      closes log = [ps.stdinFileno, ps.stdoutFileno] ∧ log.count .free = 1 := by
  obtain ⟨s, hs, ph, hphase, hreleased⟩ :
      ∃ s : ProcessObject × List SysCall, cs.foldlM psCalls (psObject ps, []) = .ok s ∧
        ∃ ph, InPhase ps ph s.1 ∧ ph.Released ps s.2 := by
    refine Lib.foldlM_ok
      (P := fun _ (s : ProcessObject × List SysCall) =>
        ∃ ph, InPhase ps ph s.1 ∧ Phase.Released ps s.2 ph)
      ⟨.running, inPhase_psObject ps, rfl, rfl⟩ ?_ cs
    rintro - s c ⟨ph, hphase, hreleased⟩
    obtain ⟨r, hr, hafter, hcalls⟩ := psCall_phase hpid hphase c
    refine ⟨(r.obj, s.2 ++ r.calls), ?_, ph.after c, hafter, ?_⟩
    · rw [psCalls, hr]
      rfl
    · rw [hcalls]
      exact released_call hpid hreleased c
  obtain ⟨r, hr, -, hcalls⟩ := psobjFinalizer_phase hphase gone
  refine ⟨s.2 ++ r.calls, ?_, ?_⟩
  · rw [lifetime, hs, Lib.ok_bind, hr]
    rfl
  · have hlast := released_call hpid hreleased (.close gone)
    rw [← hcalls] at hlast
    cases ph <;> exact hlast

/-- The hypothesis is satisfiable. -/
theorem lifetime_releases_twice :
    ∃ log, lifetime ⟨4711, 5, 6⟩ [.wait fun _ => some 0, .close fun _ => false,
        .close fun _ => false] (fun _ => false) = .ok log ∧
      closes log = [5, 6] ∧ log.count .free = 1 :=
  lifetime_releases (by decide) _ _

end Lifetime

/-! ### What repeated waits return -/

/-- How a child ends. -/
inductive Ending
  | exit (code : UInt8)
  | signal (sig : ℕ) (valid : 0 < sig ∧ sig < 127) (core : Bool)

/-- The wait status of a child on Linux. -/
def Ending.status : Ending → ℕ
  | .exit code => code.toNat * 2 ^ 8
  | .signal sig _ core => sig + if core then 2 ^ 7 else 0

/-- The calls of `wait` on an object, for each what `waitpid` would answer. -/
def waitCalls (o : ProcessObject) : List (ℕ → Option ℕ) →
    Except Fault (List (Except DukError (Option ℤ)) × ProcessObject)
  | [] => .ok ([], o)
  | waitpid :: answers => do
    let r ← psobjWait o waitpid
    let (results, o) ← waitCalls r.obj answers
    return (r.result :: results, o)

/-- What the kernel answers to `n` calls about a child that it can reap once. -/
def reapedOnce (pid : ℕ) (e : Ending) : ℕ → List (ℕ → Option ℕ)
  | 0 => []
  | n + 1 => (fun p => if p = pid then some e.status else none) :: List.replicate n fun _ => none

/-- All of `n` waits return the same value, which `returncode` has in the end,
and it is 0 only if the child has exited with code 0. -/
def WaitsAgree (ps : Subprocess) (e : Ending) (n : ℕ) : Prop :=
  ∃ results o, waitCalls (psObject ps) (reapedOnce ps.pid e n) = .ok (results, o) ∧
    ∀ r ∈ results, ∃ v, r = .ok (some v) ∧ o.returncode = some v ∧ (v = 0 → e = .exit 0)

section Waits

variable {ps : Subprocess} {o : ProcessObject} {e : Ending} {n : ℕ}

/-- The part of the status that `pswait` looks at is a signed character, which
is 0 if the second byte of the status is. -/
theorem returncodeOf_eq_zero {status : ℕ} :
    returncodeOf (some status) = 0 ↔ 2 ^ 8 ∣ status / 2 ^ 8 := by
  have hcode : returncodeOf (some status) = ((status / 2 ^ 8 : ℕ) : ℤ).bmod (2 ^ 8) := rfl
  rw [hcode, ← Int.natCast_dvd_natCast]
  exact ⟨Int.dvd_of_bmod_eq_zero, Int.bmod_eq_zero_of_dvd⟩

/-- A child that was killed looks like one that has succeeded: its signal is in
the first byte, which is shifted out. -/
theorem returncodeOf_signal (sig : ℕ) (valid : 0 < sig ∧ sig < 127) (core : Bool) :
    returncodeOf (some (Ending.signal sig valid core).status) = 0 := by
  have hlow : (Ending.signal sig valid core).status < 2 ^ 8 := by
    rw [Ending.status]
    split_ifs <;> omega
  rw [returncodeOf_eq_zero, Nat.div_eq_of_lt hlow]
  exact dvd_zero _

/-- A child that has exited returns 0 only for the code 0, as a byte fits a
signed character without loss. -/
theorem returncodeOf_exit (code : UInt8) :
    returncodeOf (some (Ending.exit code).status) = 0 ↔ code = 0 := by
  have hlt := code.toNat_lt
  have hcode : (Ending.exit code).status / 2 ^ 8 = code.toNat := by
    rw [Ending.status]
    omega
  rw [returncodeOf_eq_zero, hcode, ← UInt8.toNat_inj]
  constructor
  · intro hdvd
    exact Nat.eq_zero_of_dvd_of_lt hdvd hlt
  · intro hzero
    rw [hzero]
    exact dvd_zero _

/-- The waits behind the first one return 0, and the last one leaves it in
`returncode`. -/
theorem waitCalls_waited (h : InPhase ps .waited o) (answers : List (ℕ → Option ℕ)) :
    ∃ o', waitCalls o answers = .ok (List.replicate answers.length (.ok (some 0)), o') ∧
      o'.returncode = if answers = [] then o.returncode else some 0 := by
  induction answers generalizing o with
  | nil => exact ⟨o, rfl, rfl⟩
  | cons waitpid answers ih =>
    obtain ⟨o', ho', hcode⟩ := @ih { o with returncode := some 0 } ⟨h.state, h.stdin, h.stdout⟩
    refine ⟨o', ?_, ?_⟩
    · rw [waitCalls, psobjWait_waited h, Lib.ok_bind, ho']
      rfl
    · rw [hcode, if_neg (List.cons_ne_nil _ _)]
      split_ifs <;> rfl

/-- **What repeated waits return**: the code of the child, and then 0, which is
also what is left of the code if there is a second wait. -/
theorem waitCalls_reapedOnce (hpid : 0 < ps.pid) (e : Ending) (n : ℕ) :
    ∃ o, waitCalls (psObject ps) (reapedOnce ps.pid e (n + 1)) =
        .ok (.ok (some (returncodeOf (some e.status))) :: List.replicate n (.ok (some 0)), o) ∧
      o.returncode = if n = 0 then some (returncodeOf (some e.status)) else some 0 := by
  have hphase := inPhase_psObject ps
  have hfirst : psobjWait (psObject ps) (fun p => if p = ps.pid then some e.status else none) =
      .ok ⟨.ok (some (returncodeOf (some e.status))),
        { psObject ps with block := some { ps with pid := 0 },
                           returncode := some (returncodeOf (some e.status)) },
        [.waitpid ps.pid, .close ps.stdinFileno, .close ps.stdoutFileno]⟩ := by
    rw [psobjWait_running hpid hphase, if_pos rfl]
  obtain ⟨o, ho, hcode⟩ := @waitCalls_waited ps
    { psObject ps with block := some { ps with pid := 0 },
                       returncode := some (returncodeOf (some e.status)) } ⟨rfl, rfl, rfl⟩
    (List.replicate n fun _ => none)
  refine ⟨o, ?_, ?_⟩
  · rw [List.length_replicate] at ho
    rw [reapedOnce, waitCalls, hfirst, Lib.ok_bind, ho]
    rfl
  · rw [hcode]
    simp only [List.replicate_eq_nil_iff]

/-- What `n + 1` waits return, and what they leave: the first is the only one
that can say something of the child. -/
theorem waitsAgree_succ (hpid : 0 < ps.pid) : WaitsAgree ps e (n + 1) ↔
    ∀ r ∈ (.ok (some (returncodeOf (some e.status))) :: List.replicate n (.ok (some 0)) :
        List (Except DukError (Option ℤ))),
      ∃ v, r = .ok (some v) ∧
        (if n = 0 then some (returncodeOf (some e.status)) else some 0) = some v ∧
        (v = 0 → e = .exit 0) := by
  obtain ⟨o, ho, hcode⟩ := waitCalls_reapedOnce hpid e n
  rw [← hcode]
  constructor
  · rintro ⟨results, o', ho', hall⟩
    obtain ⟨rfl, rfl⟩ := Prod.mk.inj (Except.ok.inj (ho.symm.trans ho'))
    exact hall
  · exact fun hall => ⟨_, o, ho, hall⟩

/-- **All waits agree exactly if** there is none, or the child exits with code
0, or it exits and is waited for once. -/
theorem waitsAgree_iff (hpid : 0 < ps.pid) :
    WaitsAgree ps e n ↔ n = 0 ∨ e = .exit 0 ∨ (n = 1 ∧ ∃ code, e = .exit code) := by
  rcases n with - | n
  · exact iff_of_true ⟨[], _, rfl, fun r hr => absurd hr List.not_mem_nil⟩ (.inl rfl)
  rw [waitsAgree_succ hpid]
  rcases n with - | n
  · -- one wait
    rw [if_pos rfl, List.replicate_zero, List.forall_mem_singleton]
    rcases e with code | ⟨sig, valid, core⟩
    · refine iff_of_true ⟨_, rfl, rfl, fun hzero => ?_⟩ (.inr (.inr ⟨rfl, code, rfl⟩))
      rw [(returncodeOf_exit code).1 hzero]
    · refine iff_of_false ?_ (by simp)
      rintro ⟨v, hv, -, hexit⟩
      obtain rfl := Option.some.inj (Except.ok.inj hv)
      cases hexit (returncodeOf_signal sig valid core)
  · rw [if_neg (Nat.succ_ne_zero n)]
    constructor
    · intro hall
      obtain ⟨v, hv, -, hexit⟩ := hall (.ok (some 0)) (by simp)
      exact .inr (.inl (hexit (Option.some.inj (Except.ok.inj hv)).symm))
    · rintro (hn | rfl | ⟨hn, -⟩)
      · cases hn
      · intro r hr
        have hzero : returncodeOf (some (Ending.exit 0).status) = 0 := (returncodeOf_exit 0).2 rfl
        rw [hzero] at hr
        refine ⟨0, ?_, rfl, fun _ => rfl⟩
        rcases List.mem_cons.1 hr with rfl | hr
        · rfl
        · exact List.eq_of_mem_replicate hr
      · cases hn

/-- The hypothesis is satisfiable, for a child that fails and is waited for
once. -/
theorem waitsAgree_iff_failed :
    WaitsAgree ⟨4711, 5, 6⟩ (.exit 3) 1 ↔
      1 = 0 ∨ Ending.exit 3 = .exit 0 ∨ (1 = 1 ∧ ∃ code, Ending.exit 3 = .exit code) :=
  waitsAgree_iff (by decide)

/-- A child that was killed has returned 0, after one wait already. -/
theorem waitCalls_killed :
    (∃ o, waitCalls (psObject ⟨4711, 5, 6⟩)
        (reapedOnce 4711 (.signal SIGKILL (by decide) false) 1) = .ok ([.ok (some 0)], o)) ∧
      ¬WaitsAgree ⟨4711, 5, 6⟩ (.signal SIGKILL (by decide) false) 1 := by
  obtain ⟨o, ho, -⟩ := @waitCalls_reapedOnce ⟨4711, 5, 6⟩ (by decide)
    (.signal SIGKILL (by decide) false) 0
  rw [returncodeOf_signal] at ho
  refine ⟨⟨o, ho⟩, ?_⟩
  rintro ⟨results, o', ho', hall⟩
  obtain ⟨rfl, rfl⟩ := Prod.mk.inj (Except.ok.inj (ho.symm.trans ho'))
  obtain ⟨v, hv, -, hexit⟩ := hall _ (List.mem_singleton_self _)
  cases hexit (Option.some.inj (Except.ok.inj hv)).symm

end Waits

end Pylib
end Dukserver
