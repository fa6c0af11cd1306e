/-
# The descriptors of a process

`duktape/dukpylib.c`, `_psobj_stdin_write` and `_psobj_stdout_read` (lines 767-839): the
objects `stdin` and `stdout` of a process object have the numbers of its two pipes, and
write to them and read from them.  `wait` and `close` of the process object close the
numbers, and the two objects keep them; the server may get the same numbers for what it
opens next.

The machine `descriptors` has a script that uses one process object, and the server that
opens and closes other descriptors in between.
-/

import Dukserver.Lib.Machine
import Dukserver.Pylib.Subprocess

namespace Dukserver
namespace Pylib

open Lib (Bytes Machine ascii)
open Wsgi (DukError DukValue)

/-! ### The methods of `stdin` and `stdout` -/

/-- What `_psobj_stdin_write` writes of its arguments. -/
def stdinBuffer : List DukValue → Except DukError Bytes
  | [.string s] => .ok s
  | [.buffer b] => .ok b
  | [_] => .error ⟨.rangeError, "need string or buffer"⟩
  | _ => .error ⟨.rangeError, "accept one argument only"⟩

/-- `_psobj_stdin_write` with the number `f`, where `write` answers `nrBytes`. -/
def psobjStdinWrite (f : ℕ) (args : List DukValue) (nrBytes : ℤ) :
    Except DukError ℤ × List SysCall :=
  match stdinBuffer args with
  | .error e => (.error e, [])
  | .ok buf =>
    (if nrBytes ≠ buf.length then .error ⟨.internalError, "native write fail"⟩ else .ok nrBytes,
      [.write f buf])

/-- How many bytes `_psobj_stdout_read` asks for. -/
def stdoutSize (args : List DukValue) : ℤ :=
  let size := match args with
    | .number n :: _ => n.toInt
    | _ => 0
  if size ≤ 0 then 1024 else size

/-- `_psobj_stdout_read` with the number `f`; `answer` is what `read` reads,
`none` if it fails. -/
def psobjStdoutRead (f : ℕ) (args : List DukValue) (answer : Option Bytes) :
    Except DukError DukValue × List SysCall :=
  (match answer with
    | none => .error ⟨.internalError, "native read fail"⟩
    | some [] => .ok .null
    | some bytes => .ok (.string bytes),
    [.read f (stdoutSize args).toNat])

/-! ### The machine -/

/-- What a descriptor is. -/
inductive Owner
  | stdinPipe
  | stdoutPipe
  | other
  deriving DecidableEq, Repr

/-- The process object, and the descriptors of the server. -/
structure Server where
  obj : ProcessObject
  fds : ℕ → Option Owner

/-- What a script does with the process object, and the server with other
descriptors. -/
inductive ServerCall
  | write (args : List DukValue) (nrBytes : ℤ)
  | read (args : List DukValue) (answer : Option Bytes)
  | call (c : PsCall)
  | opens (fd : ℕ)
  | closes (fd : ℕ)

/-- What `close` leaves of the descriptors. -/
def closeAll (fds : ℕ → Option Owner) (calls : List SysCall) : ℕ → Option Owner :=
  (closes calls).foldl (fun fds fd => Function.update fds fd none) fds

/-- What a step calls. -/
def Server.calls (s : Server) : ServerCall → List SysCall
  | .write args nrBytes => (psobjStdinWrite s.obj.stdin args nrBytes).2
  | .read args answer => (psobjStdoutRead s.obj.stdout args answer).2
  | .call c => match psCall s.obj c with
    | .ok r => r.calls
    | .error _ => []
  | .opens _ => []
  | .closes _ => []

def Server.next (s : Server) (l : ServerCall) : Server :=
  match l with
  | .call c => match psCall s.obj c with
    | .ok r => ⟨r.obj, closeAll s.fds r.calls⟩
    | .error _ => s
  | .opens fd => { s with fds := Function.update s.fds fd (some .other) }
  | .closes fd => { s with fds := Function.update s.fds fd none }
  | .write _ _ => s
  | .read _ _ => s

/-- The server opens the numbers that are free, and closes its own. -/
def Server.Enabled (s : Server) : ServerCall → Prop
  | .opens fd => s.fds fd = none
  | .closes fd => s.fds fd = some .other
  | _ => True

/-- A process object among the descriptors of the server. -/
def descriptors : Machine Server ServerCall := ⟨Server.Enabled, Server.next⟩

/-- A call uses a number that belongs to the pipe that it is meant for. -/
def SysCall.OnOwnPipe (fds : ℕ → Option Owner) : SysCall → Prop
  | .write fd _ => fds fd = some .stdinPipe
  | .read fd _ => fds fd = some .stdoutPipe
  | _ => True

def UsesOwnPipe (s : Server) (l : ServerCall) : Prop := ∀ c ∈ s.calls l, c.OnOwnPipe s.fds

/-- A step that writes or reads. -/
def ServerCall.Uses : ServerCall → Prop
  | .write args _ => ∃ buf, stdinBuffer args = .ok buf
  | .read _ _ => True
  | _ => False

/-- A wait or a close. -/
def ServerCall.Releases : ServerCall → Prop
  | .call _ => True
  | _ => False

section Pipes

variable {ps : Subprocess} {s t : Server} {l : ServerCall} {ls : List ServerCall}
  {fds : ℕ → Option Owner}

/-- The pipes belong to the process. -/
structure Held (ps : Subprocess) (s : Server) : Prop where
  phase : InPhase ps .running s.obj
  stdin : s.fds ps.stdinFileno = some .stdinPipe
  stdout : s.fds ps.stdoutFileno = some .stdoutPipe

/-- The numbers of the pipes are free, or somebody else's. -/
structure Lost (ps : Subprocess) (s : Server) : Prop where
  phase : ∃ ph, InPhase ps ph s.obj ∧ ph ≠ .running
  stdin : s.fds ps.stdinFileno ≠ some .stdinPipe
  stdout : s.fds ps.stdoutFileno ≠ some .stdoutPipe

/-- Only the first wait or close closes anything.  Both set the pid to 0, and
what they do is guarded by it. -/
theorem closes_calls (hpid : 0 < ps.pid) (ph : Phase) (c : PsCall) :
    closes (ph.calls ps c) =
      if ph = .running then [ps.stdinFileno, ps.stdoutFileno] else [] := by
  cases ph with
  | running =>
    cases c with
    | wait waitpid => rfl
    | close gone => exact (psclose_released hpid gone).1
  | waited => cases c <;> rfl
  | released => cases c <;> rfl

/-- What a wait or a close does.  The descriptors that it closes are free then,
for whoever opens the next. -/
theorem next_call (hpid : 0 < ps.pid) {ph : Phase} (h : InPhase ps ph s.obj) (c : PsCall) :
    InPhase ps (ph.after c) (s.next (.call c)).obj ∧
      (s.next (.call c)).fds = closeAll s.fds (ph.calls ps c) ∧
      s.calls (.call c) = ph.calls ps c := by
  obtain ⟨r, hr, hafter, hcalls⟩ := psCall_phase hpid h c
  simp only [Server.next, Server.calls, hr]
  exact ⟨hafter, by rw [hcalls], hcalls⟩

/-- A wait or a close neither writes nor reads: it closes the pipes, waits and
sends signals. -/
theorem onOwnPipe_calls (hpid : 0 < ps.pid) (ph : Phase) (c : PsCall) :
    ∀ call ∈ ph.calls ps c, call.OnOwnPipe fds := by
  have hfree : ∀ call ∈ [SysCall.free], call.OnOwnPipe fds := by
    simp only [List.mem_singleton, forall_eq]
    trivial
  have hnone : ∀ call ∈ ([] : List SysCall), call.OnOwnPipe fds := fun call hcall =>
    absurd hcall List.not_mem_nil
  cases ph with
  | running =>
    cases c with
    | wait waitpid =>
      simp only [Phase.calls, List.forall_mem_cons]
      exact ⟨trivial, trivial, trivial, hnone⟩
    | close gone =>
      rw [Phase.calls, psclose, if_pos hpid, List.forall_mem_append, List.forall_mem_cons,
        List.forall_mem_cons]
      refine ⟨⟨trivial, trivial, fun call hcall => ?_⟩, hfree⟩
      obtain ⟨sig, rfl⟩ := mem_killLoop hcall
      trivial
  | waited =>
    cases c with
    | wait waitpid => exact hnone
    | close gone => exact hfree
  | released => cases c <;> exact hnone

/-- A write, by its arguments.  It reads the number from the object, which keeps
it when the descriptor is closed. -/
theorem usesOwnPipe_write (args : List DukValue) (nrBytes : ℤ) :
    UsesOwnPipe s (.write args nrBytes) ↔
      ∀ buf, stdinBuffer args = .ok buf → s.fds s.obj.stdin = some .stdinPipe := by
  rcases hbuf : stdinBuffer args with e | buf
  · have hcalls : s.calls (.write args nrBytes) = [] := by
      simp only [Server.calls, psobjStdinWrite, hbuf]
    rw [UsesOwnPipe, hcalls]
    exact iff_of_true (fun call hcall => absurd hcall List.not_mem_nil) nofun
  · have hcalls : s.calls (.write args nrBytes) = [.write s.obj.stdin buf] := by
      simp only [Server.calls, psobjStdinWrite, hbuf]
    rw [UsesOwnPipe, hcalls, List.forall_mem_singleton]
    exact ⟨fun h _ _ => h, fun h => h buf rfl⟩

/-- And a read, which has none that matter. -/
theorem usesOwnPipe_read (args : List DukValue) (answer : Option Bytes) :
    UsesOwnPipe s (.read args answer) ↔ s.fds s.obj.stdout = some .stdoutPipe :=
  List.forall_mem_singleton

/-- **As long as nothing has been released, all goes well**: the numbers stand
for the pipes. -/
theorem held_step (hpid : 0 < ps.pid) (h : Held ps s) (hl : s.Enabled l) :
    UsesOwnPipe s l ∧ (l.Releases → Lost ps (s.next l)) ∧ (¬l.Releases → Held ps (s.next l)) := by
  obtain ⟨hphase, hin, hout⟩ := h
  -- the server has nothing to do with the two numbers
  have hupdate : ∀ fd v, s.fds fd ≠ some .stdinPipe → s.fds fd ≠ some .stdoutPipe →
      Held ps { s with fds := Function.update s.fds fd v } := by
    intro fd v hfd₁ hfd₂
    refine ⟨hphase, (Function.update_of_ne ?_ _ _).trans hin,
      (Function.update_of_ne ?_ _ _).trans hout⟩
    · exact fun he => hfd₁ (he ▸ hin)
    · exact fun he => hfd₂ (he ▸ hout)
  cases l with
  | write args nrBytes =>
    refine ⟨(usesOwnPipe_write args nrBytes).2 fun buf _ => ?_, False.elim,
      fun _ => ⟨hphase, hin, hout⟩⟩
    rw [hphase.stdin, hin]
  | read args answer =>
    refine ⟨(usesOwnPipe_read args answer).2 ?_, False.elim, fun _ => ⟨hphase, hin, hout⟩⟩
    rw [hphase.stdout, hout]
  | call c =>
    obtain ⟨hafter, hfds, hcalls⟩ := next_call hpid hphase c
    refine ⟨?_, fun _ => ⟨⟨_, hafter, ?_⟩, ?_, ?_⟩, fun hno => absurd trivial hno⟩
    · rw [UsesOwnPipe, hcalls]
      exact onOwnPipe_calls hpid _ c
    · cases c <;> exact Phase.noConfusion
    · rw [hfds, closeAll, closes_calls hpid, if_pos rfl, List.foldl_cons, List.foldl_cons,
        List.foldl_nil, Function.update_apply, Function.update_self]
      split_ifs <;> exact nofun
    · rw [hfds, closeAll, closes_calls hpid, if_pos rfl, List.foldl_cons, List.foldl_cons,
        List.foldl_nil, Function.update_self]
      exact nofun
  | opens fd =>
    have hfree : s.fds fd = none := hl
    exact ⟨fun call hcall => absurd hcall List.not_mem_nil, False.elim,
      fun _ => hupdate fd _ (by rw [hfree]; exact nofun) (by rw [hfree]; exact nofun)⟩
  | closes fd =>
    have hother : s.fds fd = some .other := hl
    exact ⟨fun call hcall => absurd hcall List.not_mem_nil, False.elim,
      fun _ => hupdate fd _ (by rw [hother]; exact nofun) (by rw [hother]; exact nofun)⟩

/-- **Afterwards each write and read goes wrong**: the numbers stand for
nothing, or for what the server has opened since. -/
theorem lost_step (hpid : 0 < ps.pid) (h : Lost ps s) :
    Lost ps (s.next l) ∧ (UsesOwnPipe s l ↔ ¬l.Uses) := by
  obtain ⟨⟨ph, hphase, hph⟩, hin, hout⟩ := h
  have hlost : Lost ps s := ⟨⟨ph, hphase, hph⟩, hin, hout⟩
  -- a number is somebody else's or free whatever the server does with it
  have hupdate : ∀ fd v, v ≠ some Owner.stdinPipe → v ≠ some Owner.stdoutPipe →
      Lost ps { s with fds := Function.update s.fds fd v } := by
    intro fd v hv₁ hv₂
    refine ⟨⟨ph, hphase, hph⟩, ?_, ?_⟩ <;> simp only [Function.update_apply] <;> split_ifs
    · exact hv₁
    · exact hin
    · exact hv₂
    · exact hout
  cases l with
  | write args nrBytes =>
    refine ⟨hlost, ?_⟩
    rw [usesOwnPipe_write, hphase.stdin, ServerCall.Uses, not_exists]
    exact forall_congr' fun buf => ⟨fun h hbuf => hin (h hbuf), fun h hbuf => absurd hbuf h⟩
  | read args answer =>
    refine ⟨hlost, ?_⟩
    rw [usesOwnPipe_read, hphase.stdout]
    exact iff_of_false hout (not_not.2 trivial)
  | call c =>
    obtain ⟨hafter, hfds, hcalls⟩ := next_call hpid hphase c
    have hsame : (s.next (.call c)).fds = s.fds := by
      rw [hfds, closeAll, closes_calls hpid, if_neg hph]
      rfl
    refine ⟨⟨⟨_, hafter, ?_⟩, by rwa [hsame], by rwa [hsame]⟩, iff_of_true ?_ not_false⟩
    · cases ph with
      | running => exact absurd rfl hph
      | waited => cases c <;> exact Phase.noConfusion
      | released => cases c <;> exact Phase.noConfusion
    · rw [UsesOwnPipe, hcalls]
      exact onOwnPipe_calls hpid ph c
  | opens fd =>
    exact ⟨hupdate fd (some .other) nofun nofun,
      iff_of_true (fun call hcall => absurd hcall List.not_mem_nil) not_false⟩
  | closes fd =>
    exact ⟨hupdate fd none nofun nofun,
      iff_of_true (fun call hcall => absurd hcall List.not_mem_nil) not_false⟩

/-- **Each write and read of a run is on the pipe of the process exactly if**
none comes behind a wait or a close. -/
theorem usesOwnPipe_iff (hpid : 0 < ps.pid) (hin : fds ps.stdinFileno = some .stdinPipe)
    (hout : fds ps.stdoutFileno = some .stdoutPipe)
    (hrun : descriptors.Run ⟨psObject ps, fds⟩ ls t) :
    descriptors.Along UsesOwnPipe ⟨psObject ps, fds⟩ ls ↔
      ls.Pairwise fun m l => m.Releases → ¬l.Uses :=
  Machine.along_iff_pairwise (fun _ _ h hl => held_step hpid h hl)
    (fun _ _ h _ => lost_step hpid h) ⟨inPhase_psObject ps, hin, hout⟩ hrun

/-- The numbers 5 and 6 are the pipes of a process. -/
def pipeFds : ℕ → Option Owner := fun fd =>
  if fd = 5 then some .stdinPipe else if fd = 6 then some .stdoutPipe else none

/-- The hypotheses are satisfiable, for a script that writes, reads and waits. -/
theorem usesOwnPipe_iff_cat :
    descriptors.Along UsesOwnPipe ⟨psObject ⟨4711, 5, 6⟩, pipeFds⟩
        [.write [.string (ascii "x")] 1, .read [] (some (ascii "x")), .opens 7,
          .call (.wait fun _ => some 0)] ↔
      List.Pairwise (fun m l => m.Releases → ¬ServerCall.Uses l)
        [.write [.string (ascii "x")] 1, .read [] (some (ascii "x")), .opens 7,
          .call (.wait fun _ => some 0)] :=
  usesOwnPipe_iff (by decide) rfl rfl ⟨trivial, trivial, rfl, trivial, rfl⟩

/-- The server gets the number again, and the script writes to what has it now. -/
theorem write_after_wait :
    (∃ t, descriptors.Run ⟨psObject ⟨4711, 5, 6⟩, pipeFds⟩
        [.call (.wait fun _ => some 0), .opens 5, .write [.string (ascii "x")] 1] t) ∧
      ¬descriptors.Along UsesOwnPipe ⟨psObject ⟨4711, 5, 6⟩, pipeFds⟩
        [.call (.wait fun _ => some 0), .opens 5, .write [.string (ascii "x")] 1] := by
  refine ⟨⟨_, trivial, rfl, trivial, rfl⟩, ?_⟩
  rintro ⟨-, -, hwrite, -⟩
  have hown := hwrite (.write 5 (ascii "x")) (List.mem_singleton_self _)
  have hother : some Owner.other = some Owner.stdinPipe := hown
  cases hother

end Pipes

end Pylib
end Dukserver
