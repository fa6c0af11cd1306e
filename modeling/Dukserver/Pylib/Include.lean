/-
# Including a script

`duktape/dukpylib.c`, `_include` (lines 1034-1102), and the two evaluations of
`_wsgi_process` that run scripts (`libhttpd/wsgi_server.c`, lines 313-323).
`include` pushes `__file__` to `Modules.traces`, sets it to the path it
evaluates, and takes it back from `traces` afterwards.  The exit that throws the
error of the script on does not take it back.

`ideal` is what a script does if every `include` keeps its word, and it is
undefined once an `include` throws that has already pushed.  As long as it is
defined, the script does exactly that and leaves the state as it found it; if it
is not, `traces` has grown for good (`exec_ideal`).
-/

import Dukserver.Pylib.OsPath
import Dukserver.Wsgi.Duk

namespace Dukserver
namespace Pylib

open Lib (Bytes ascii byteAt)
open Wsgi (DukValue pushString)

/-- The files that exist, and the working directory, if it is known. -/
structure FileEnv where
  present : Bytes → Bool
  cwd : Option Bytes

/-- The global `__file__`, a string or undefined, and `Modules.traces`, the last
pushed value first. -/
structure Trace where
  file : Option Bytes
  traces : List (Option Bytes)
  deriving DecidableEq, Repr

/-- The file name among the arguments of `include`, if they are accepted. -/
def includeName : List DukValue → Option Bytes
  | [.string fn] => if fn.length ≤ 0 then none else some fn
  | _ => none

/-- A name that starts with `./` or `.\`. -/
def isDotted (fn : Bytes) : Bool := 2 ≤ fn.length && byteAt fn 0 == 46 && isSep (byteAt fn 1)

/-- The path that `include` evaluates: the name beside the current script, if
there is such a file; made absolute. -/
def includePath (env : FileEnv) (file : Option Bytes) (fn : Bytes) : Option Bytes :=
  let fn :=
    if isDotted fn then fn
    else match file with
      | none => fn
      | some file =>
        match ospathJoin [ospathDirname file, fn] with
        | none => fn
        | some tryfn => if env.present tryfn then tryfn else fn
  ospathAbspath env.cwd fn

/-- `_include`, where `run` is what evaluating the file does: whether it
returns, or throws; and the state.  Without a path there is no file to evaluate. -/
def includeCall (env : FileEnv) (args : List DukValue) (run : Trace → Bool × Trace) (s : Trace) :
    Bool × Trace :=
  match includeName args with
  | none => (false, s)
  | some fn =>
    let s := { s with traces := s.file :: s.traces }
    let s := { s with file := includePath env s.file fn }
    match s.file with
    | none => (false, s)
    | some _ =>
      match run s with
      | (false, s) => (false, s)
      | (true, s) => (true, ⟨s.traces.head?.join, s.traces.tail⟩)

/-- What a script does besides its own computations: it returns, it throws, or
it includes another script and goes on, after its return or after its error.  A
script that does not catch the error goes on with `throw`. -/
inductive Script
  | done
  | throw
  | including (args : List DukValue) (body onReturn onThrow : Script)

/-- Run a script: whether it returns, or throws; and the state. -/
def exec (env : FileEnv) : Script → Trace → Bool × Trace
  | .done, s => (true, s)
  | .throw, s => (false, s)
  | .including args body onReturn onThrow, s =>
    match includeCall env args (exec env body) s with
    | (true, s) => exec env onReturn s
    | (false, s) => exec env onThrow s

/-- The scripts of a request: the one that is included, and the application. -/
structure Visit where
  main : Script
  application : Script

/-- The value of `__file__`. -/
def fileValue : Option Bytes → DukValue
  | none => .undefined
  | some file => .string file

/-- `_wsgi_process`: `include(__file__)`, and the application if that returns. -/
def wsgiProcess (env : FileEnv) (s : Trace) (v : Visit) : Trace :=
  match includeCall env [fileValue s.file] (exec env v.main) s with
  | (false, s) => s
  | (true, s) => (exec env v.application s).2

/-! ### What a script does if every include keeps its word -/

/-- Whether the script returns when `__file__` is its own in all of its parts,
`none` if an `include` throws that has already pushed. -/
def ideal (env : FileEnv) : Script → Option Bytes → Option Bool
  | .done, _ => some true
  | .throw, _ => some false
  | .including args body onReturn onThrow, file =>
    match includeName args with
    | none => ideal env onThrow file
    | some fn =>
      match includePath env file fn with
      | none => none
      | some path =>
        match ideal env body (some path) with
        | some true => ideal env onReturn file
        | _ => none

/-- An `include` rejects its arguments; or the script has a path and returns,
and so does every `include` that it reaches. -/
def Contained (env : FileEnv) (args : List DukValue) (body : Script) (file : Option Bytes) : Prop :=
  ∀ fn, includeName args = some fn →
    ∃ path, includePath env file fn = some path ∧ ideal env body (some path) = some true

section Exec

variable {env : FileEnv} {args : List DukValue} {run : Trace → Bool × Trace} {s : Trace}

/-- A rejected `include` changes nothing. -/
theorem includeCall_reject (h : includeName args = none) :
    includeCall env args run s = (false, s) := by
  unfold includeCall
  rw [h]

/-- **One include.**  If its script returns and leaves the state as it found it,
so does the `include`; if its script throws or has grown `traces`, so has the
`include`. -/
theorem includeCall_cases (env : FileEnv) (run : Trace → Bool × Trace) (s : Trace) {fn : Bytes}
    (h : includeName args = some fn) :
    (includePath env s.file fn = none ∧
        includeCall env args run s = (false, ⟨none, s.file :: s.traces⟩)) ∨
      ∃ path, includePath env s.file fn = some path ∧
        includeCall env args run s =
          match run ⟨some path, s.file :: s.traces⟩ with
          | (false, s') => (false, s')
          | (true, s') => (true, ⟨s'.traces.head?.join, s'.traces.tail⟩) := by
  unfold includeCall
  rw [h]
  cases hpath : includePath env s.file fn with
  | none => exact .inl ⟨rfl, by simp only [hpath]⟩
  | some path => exact .inr ⟨path, rfl, by simp only [hpath]⟩

/-- What a script can do to the state: what it ideally does, leaving the state
alone, or grow `traces` for good. -/
def Outcome (env : FileEnv) (t : Script) (s : Trace) : Prop :=
  (∃ ok, ideal env t s.file = some ok ∧ exec env t s = (ok, s)) ∨
    (ideal env t s.file = none ∧ s.traces.length < (exec env t s).2.traces.length)

/-- What the two outcomes have in common: `traces` never shrinks. -/
theorem Outcome.length_le {t : Script} (h : Outcome env t s) :
    s.traces.length ≤ (exec env t s).2.traces.length := by
  rcases h with ⟨ok, -, hexec⟩ | ⟨-, hlt⟩
  · rw [hexec]
  · exact hlt.le

/-- **One include of a script**, if its arguments are accepted.  It returns and
takes back what it has pushed if the script ideally returns; otherwise `traces`
has grown. -/
theorem includeCall_outcome {body : Script} (hbody : ∀ s, Outcome env body s) (s : Trace)
    {fn : Bytes} (h : includeName args = some fn) :
    (∃ path, includePath env s.file fn = some path ∧ ideal env body (some path) = some true ∧
        includeCall env args (exec env body) s = (true, s)) ∨
      ((∀ path, includePath env s.file fn = some path → ideal env body (some path) ≠ some true) ∧
        s.traces.length < (includeCall env args (exec env body) s).2.traces.length) := by
  rcases includeCall_cases env (exec env body) s h with ⟨hpath, hcall⟩ | ⟨path, hpath, hcall⟩
  · -- there is no path: the error leaves what was pushed
    right
    rw [hcall]
    exact ⟨fun path hp => absurd (hpath.symm.trans hp) (by simp), Nat.lt_succ_self _⟩
  · have honly : ∀ path', includePath env s.file fn = some path' → path' = path :=
      fun path' hp => (Option.some.inj (hpath.symm.trans hp)).symm
    rw [hcall]
    rcases hbody ⟨some path, s.file :: s.traces⟩ with ⟨ok, hideal, hrun⟩ | ⟨hideal, hlt⟩
    · rw [hrun]
      simp only at hideal
      cases ok with
      | true => exact .inl ⟨path, hpath, hideal, rfl⟩
      | false =>
        right
        refine ⟨fun path' hp => ?_, Nat.lt_succ_self _⟩
        rw [honly path' hp, hideal]
        simp
    · right
      simp only at hideal
      refine ⟨fun path' hp => ?_, ?_⟩
      · rw [honly path' hp, hideal]
        simp
      · rcases hrun : exec env body ⟨some path, s.file :: s.traces⟩ with ⟨ok, s'⟩
        rw [hrun] at hlt
        simp only [List.length_cons] at hlt
        cases ok with
        | true =>
          simp only [List.length_tail]
          omega
        | false =>
          simp only
          omega

/-- **A script does what it ideally does and leaves the state alone, or it has
grown `traces` for good.** -/
theorem exec_ideal (env : FileEnv) (t : Script) (s : Trace) : Outcome env t s := by
  induction t generalizing s with
  | done => exact .inl ⟨true, rfl, rfl⟩
  | throw => exact .inl ⟨false, rfl, rfl⟩
  | including args body onReturn onThrow ihBody ihReturn ihThrow =>
    unfold Outcome
    rw [ideal, exec]
    cases hname : includeName args with
    | none =>
      rw [includeCall_reject hname]
      exact ihThrow s
    | some fn =>
      simp only
      rcases includeCall_outcome ihBody s hname with ⟨path, hpath, hideal, hcall⟩ | ⟨hno, hlt⟩
      · simp only [hpath, hideal, hcall]
        exact ihReturn s
      · right
        constructor
        · cases hpath : includePath env s.file fn with
          | none => rfl
          | some path =>
            have hne := hno path hpath
            rcases hideal : ideal env body (some path) with _ | _ | _
            · simp only [hideal]
            · simp only [hideal]
            · exact absurd hideal hne
        · -- what comes after does not take it back
          rcases hcall : includeCall env args (exec env body) s with ⟨ok, s'⟩
          rw [hcall] at hlt
          cases ok with
          | true => exact hlt.trans_le (ihReturn s').length_le
          | false => exact hlt.trans_le (ihThrow s').length_le

/-- **An include restores the state exactly when it is contained**: the file and
the trace are put back behind a script that returns, and not behind one that
throws. -/
theorem includeCall_restores_iff (env : FileEnv) (args : List DukValue) (body : Script)
    (s : Trace) :
    (includeCall env args (exec env body) s).2 = s ↔ Contained env args body s.file := by
  cases hname : includeName args with
  | none =>
    rw [includeCall_reject hname]
    exact iff_of_true rfl fun fn hfn => absurd (hname.symm.trans hfn) (by simp)
  | some fn =>
    rcases includeCall_outcome (exec_ideal env body) s hname with
      ⟨path, hpath, hideal, hcall⟩ | ⟨hno, hlt⟩
    · rw [hcall]
      refine iff_of_true rfl fun fn' hfn' => ?_
      obtain rfl := Option.some.inj (hname.symm.trans hfn')
      exact ⟨path, hpath, hideal⟩
    · refine iff_of_false (fun he => ?_) fun hcontained => ?_
      · rw [he] at hlt
        exact lt_irrefl _ hlt
      · obtain ⟨path, hpath, hideal⟩ := hcontained fn hname
        exact hno path hpath hideal

/-- The includes of a request are contained: that of the script, and those of
the application if it is run. -/
def VisitOk (env : FileEnv) (v : Visit) (file : Option Bytes) : Prop :=
  Contained env [fileValue file] v.main file ∧
    (includeName [fileValue file] ≠ none → ideal env v.application file ≠ none)

/-- **A request leaves the state as it found it**, if its script does so in each
of its two parts. -/
theorem wsgiProcess_restores {v : Visit} (h : VisitOk env v s.file) : wsgiProcess env s v = s := by
  have hcall := (includeCall_restores_iff env [fileValue s.file] v.main s).2 h.1
  unfold wsgiProcess
  rcases hrun : includeCall env [fileValue s.file] (exec env v.main) s with ⟨ok, s'⟩
  rw [hrun] at hcall
  obtain rfl : s' = s := hcall
  cases ok with
  | false => rfl
  | true =>
    have hname : includeName [fileValue s'.file] ≠ none := fun hnone => by
      rw [includeCall_reject hnone] at hrun
      exact Bool.false_ne_true (Prod.mk.inj hrun).1
    rcases exec_ideal env v.application s' with ⟨ok, -, hexec⟩ | ⟨hnone, -⟩
    · simp only [hexec]
    · exact absurd hnone (h.2 hname)

/-- **`include` gives back `__file__` and `traces` exactly when it is
contained**, for every tree of scripts and every state; and in every run of
requests whose includes are contained, each request finds the same `__file__`,
and the same `traces`. -/
theorem include_restores (env : FileEnv) :
    (∀ args body s, (includeCall env args (exec env body) s).2 = s ↔
      Contained env args body s.file) ∧
    ∀ s (visits : List Visit), (∀ v ∈ visits, VisitOk env v s.file) →
      visits.foldl (wsgiProcess env) s = s := by
  refine ⟨includeCall_restores_iff env, fun s visits hok => ?_⟩
  induction visits with
  | nil => rfl
  | cons v visits ih =>
    rw [List.foldl_cons, wsgiProcess_restores (hok v (List.mem_cons_self ..))]
    exact ih fun w hw => hok w (List.mem_cons_of_mem _ hw)

/-- A site with two scripts. -/
def siteEnv : FileEnv where
  present p := p == ascii "/w/app.js" || p == ascii "/w/lib.js"
  cwd := some (ascii "/w")

/-- The state before the first request. -/
def siteStart : Trace := ⟨some (ascii "app.js"), []⟩

/-- A script that includes `lib.js` and does not catch its error. -/
def libVisit (lib : Script) : Visit where
  main := .including [.string (ascii "lib.js")] lib .done .throw
  application := .done

/-- The hypothesis is satisfiable. -/
theorem include_restores_site :
    [libVisit .done, libVisit .done].foldl (wsgiProcess siteEnv) siteStart = siteStart := by
  refine (include_restores siteEnv).2 siteStart _ fun v hv => ?_
  obtain rfl : v = libVisit .done := by simpa using hv
  refine ⟨fun fn hfn => ?_, fun _ => by decide⟩
  obtain rfl : ascii "app.js" = fn := Option.some.inj hfn
  exact ⟨ascii "/w/app.js", by decide, by decide⟩

/-- An error in `lib.js`: the next request includes it in place of `app.js`. -/
theorem include_error :
    (includeCall siteEnv [.string (ascii "app.js")]
        (exec siteEnv (libVisit .throw).main) siteStart).2 ≠ siteStart ∧
      (wsgiProcess siteEnv siteStart (libVisit .throw)).file = some (ascii "/w/lib.js") := by
  decide

end Exec

end Pylib
end Dukserver
