/-
# The children of the server

`duktape/subprocess_linux.c`, `pswait` and `psclose`, for all process objects that scripts
open.  Only `waitpid` takes a child out of the kernel's table, and only `pswait` calls it;
`psclose` sends signals, and `kill(pid, 0)` finds a child that has ended but is not reaped
like one that runs.

The machine `processes` has the objects with their finalizers and the children that are not
reaped.  What `waitpid` answers is part of a call: where it fails, `pswait` forgets the pid all the
same, and the child is left to nobody.  `Books` keeps the two together over any run: an object that
nothing was called on has its child, and one that was waited for has none unless the wait failed.
-/

import Dukserver.Lib.Machine
import Dukserver.Pylib.Subprocess
import Mathlib.Data.List.Nodup
import Mathlib.Data.List.Perm.Subperm

namespace Dukserver
namespace Pylib

open Http (Fault)
open Lib (Machine)

/-- A process object, its property `pid`, and whether the collector has taken
it. -/
structure Entry where
  obj : ProcessObject
  pid : ℕ
  collected : Bool

/-- The process objects in the order in which they were opened, and the children
that are not reaped, each with the object that it was started for. -/
structure Processes where
  entries : List Entry
  children : List (ℕ × ℕ)

/-- What is called on an object: by the script, and by the collector. -/
inductive ObjectCall
  /-- What `waitpid` answers if it is called: the wait status, or `none` for -1. -/
  | wait (answer : Option ℕ)
  | close
  | finalize
  deriving DecidableEq, Repr

inductive ProcessCall
  | opens (ps : Subprocess)
  | on (i : ℕ) (c : ObjectCall)
  deriving DecidableEq, Repr

/-- `waitpid` answers `answer` for a child that there is, and fails otherwise. -/
def Processes.waitpid (s : Processes) (answer : Option ℕ) (pid : ℕ) : Option ℕ :=
  if s.children.any fun c => c.1 == pid then answer else none

/-- `kill(pid, 0)` fails where there is no such child. -/
def Processes.gone (s : Processes) (pid : ℕ) : ℕ → Bool := fun _ =>
  !s.children.any fun c => c.1 == pid

/-- What `waitpid` answers in a call. -/
def ObjectCall.answer : ObjectCall → Option ℕ
  | .wait answer => answer
  | _ => none

/-- What is left of the children: a `waitpid` that answers a status takes its
child. -/
def reap (answer : Option ℕ) (children : List (ℕ × ℕ)) (calls : List SysCall) : List (ℕ × ℕ) :=
  calls.foldl (fun children call => match call, answer with
    | .waitpid pid, some _ => children.filter fun c => c.1 != pid
    | _, _ => children) children

def Processes.outcome (s : Processes) (e : Entry) : ObjectCall → Except Fault PsOutcome
  | .wait answer => psobjWait e.obj (s.waitpid answer)
  | .close => psobjClose e.obj (s.gone e.pid)
  | .finalize => psobjFinalizer e.obj (s.gone e.pid)

/-- Whether the object is collected after the call. -/
def Entry.collectedAfter (e : Entry) : ObjectCall → Bool
  | .finalize => true
  | _ => e.collected

def Processes.next (s : Processes) : ProcessCall → Processes
  | .opens ps =>
    ⟨s.entries ++ [⟨psObject ps, ps.pid, false⟩], s.children ++ [(ps.pid, s.entries.length)]⟩
  | .on i c =>
    match s.entries[i]? with
    | none => s
    | some e =>
      match s.outcome e c with
      | .error _ => s
      | .ok r =>
        ⟨s.entries.set i ⟨r.obj, e.pid, e.collectedAfter c⟩, reap c.answer s.children r.calls⟩

/-- The kernel gives a process id that no child has, and nothing is called on a
collected object. -/
def Processes.Enabled (s : Processes) : ProcessCall → Prop
  | .opens ps => 0 < ps.pid ∧ ∀ c ∈ s.children, c.1 ≠ ps.pid
  | .on i _ => ∃ e, s.entries[i]? = some e ∧ e.collected = false

/-- The process objects of the server. -/
def processes : Machine Processes ProcessCall := ⟨Processes.Enabled, Processes.next⟩

/-- The child of object `i` is not reaped. -/
def Unreaped (s : Processes) (i : ℕ) : Prop := ∃ pid, (pid, i) ∈ s.children

/-- The `subprocess_t` of object `i` is freed. -/
def Freed (s : Processes) (i : ℕ) : Prop := ∃ e, s.entries[i]? = some e ∧ e.obj.block = none

/-- The objects whose `subprocess_t` is not freed. -/
def Processes.live (s : Processes) : List ℕ :=
  (List.range s.entries.length).filter fun i => (s.entries[i]?.bind fun e => e.obj.block).isSome

/-- Each child whose `subprocess_t` is freed is reaped, and the others are no
more than the live objects. -/
structure Reaped (s : Processes) : Prop where
  freed : ∀ i, Freed s i → ¬Unreaped s i
  count : s.children.length ≤ s.live.length

/-- A close or a finalizer. -/
def ObjectCall.Releases : ObjectCall → Prop
  | .wait _ => False
  | _ => True

/-- The first of the calls that is on object `i`. -/
def firstCall (ls : List ProcessCall) (i : ℕ) : Option ObjectCall :=
  ls.findSome? fun
    | .opens _ => none
    | .on j c => if j = i then some c else none

/-- A wait whose `waitpid` answers a status. -/
def ObjectCall.Waits (c : ObjectCall) : Prop := ∃ status, c = .wait (some status)

/-- A close or a finalizer of object `i` is among the calls. -/
def Released (ls : List ProcessCall) (i : ℕ) : Prop := ∃ c, .on i c ∈ ls ∧ c.Releases

/-- Each object that close or the finalizer was called on was waited for first,
and `waitpid` gave the status. -/
def WaitedFirst (ls : List ProcessCall) : Prop :=
  ∀ i, Released ls i → ∃ c, firstCall ls i = some c ∧ c.Waits

/-- What is true of object `i` after the calls `ls`.  Whether its child is left
is decided by the first call on it: after that `ps->pid` is 0, or the object is
closed. -/
inductive EntryBooks (ls : List ProcessCall) (children : List (ℕ × ℕ)) (i : ℕ) (e : Entry) : Prop
  | running (ps : Subprocess) (pid_pos : 0 < ps.pid) (phase : InPhase ps .running e.obj)
      (child : (ps.pid, i) ∈ children) (first : firstCall ls i = none)
  | waited (ps : Subprocess) (pid_pos : 0 < ps.pid) (phase : InPhase ps .waited e.obj)
      (held : ¬Released ls i) (c : ObjectCall) (first : firstCall ls i = some c)
      (unreaped : (∃ pid, (pid, i) ∈ children) ↔ ¬c.Waits)
  | freed (ps : Subprocess) (pid_pos : 0 < ps.pid) (block : e.obj.block = none)
      (phase : e.collected = false → InPhase ps .released e.obj) (released : Released ls i)
      (c : ObjectCall) (first : firstCall ls i = some c)
      (unreaped : (∃ pid, (pid, i) ∈ children) ↔ ¬c.Waits)

/-- The objects and the children after the calls `ls`. -/
structure Books (ls : List ProcessCall) (s : Processes) : Prop where
  pids : (s.children.map Prod.fst).Nodup
  child : ∀ c ∈ s.children, ∃ e, s.entries[c.2]? = some e
  objects : (s.children.map Prod.snd).Nodup
  entry : ∀ i e, s.entries[i]? = some e → EntryBooks ls s.children i e
  opened : ∀ i c, firstCall ls i = some c → i < s.entries.length

section Books

variable {ls : List ProcessCall} {s t : Processes} {i j : ℕ} {e e' : Entry} {c c' : ObjectCall}
  {l : ProcessCall} {children' : List (ℕ × ℕ)} {answer : Option ℕ}

/-- The first call on an object in a run is the one in its beginning, or else in
the rest. -/
theorem firstCall_append (ls ms : List ProcessCall) (i : ℕ) :
    firstCall (ls ++ ms) i = (firstCall ls i).or (firstCall ms i) := List.findSome?_append

/-- Opening an object is no call on one. -/
theorem firstCall_opens (ps : Subprocess) : firstCall (ls ++ [.opens ps]) i = firstCall ls i :=
  (firstCall_append ..).trans (Option.or_none ..)

/-- A call on another object is not the first one on this. -/
theorem firstCall_other (hne : i ≠ j) : firstCall (ls ++ [.on j c]) i = firstCall ls i := by
  have hnone : firstCall [.on j c] i = none := by
    rw [firstCall, List.findSome?_singleton]
    exact if_neg hne.symm
  rw [firstCall_append, hnone, Option.or_none]

/-- If there was none, the next call on the object is the first. -/
theorem firstCall_first (h : firstCall ls j = none) : firstCall (ls ++ [.on j c]) j = some c := by
  have hsome : firstCall [.on j c] j = some c := by
    rw [firstCall, List.findSome?_singleton]
    exact if_pos rfl
  rw [firstCall_append, h, hsome]
  rfl

/-- If there was one, it stays the first. -/
theorem firstCall_later {ms : List ProcessCall} (h : firstCall ls i = some c') :
    firstCall (ls ++ ms) i = some c' := by
  rw [firstCall_append, h]
  rfl

/-- A release is one of the calls, or the one that is made now.  This is how the
books of a run are carried over its last call. -/
theorem released_append_on :
    Released (ls ++ [.on j c]) i ↔ Released ls i ∨ j = i ∧ c.Releases := by
  constructor
  · rintro ⟨c', hc', hr⟩
    rcases List.mem_append.1 hc' with hc' | hc'
    · exact .inl ⟨c', hc', hr⟩
    · cases List.mem_singleton.1 hc'
      exact .inr ⟨rfl, hr⟩
  · rintro (⟨c', hc', hr⟩ | ⟨rfl, hr⟩)
    · exact ⟨c', List.mem_append_left _ hc', hr⟩
    · exact ⟨c, List.mem_append_right _ (List.mem_singleton_self _), hr⟩

/-- Opening another object releases nothing. -/
theorem released_opens (ps : Subprocess) : Released (ls ++ [.opens ps]) i ↔ Released ls i := by
  refine exists_congr fun c => and_congr_left fun _ => ?_
  rw [List.mem_append, List.mem_singleton]
  exact or_iff_left nofun

/-- A call on another object does not release this one. -/
theorem released_other (hne : i ≠ j) : Released (ls ++ [.on j c]) i ↔ Released ls i :=
  released_append_on.trans (or_iff_left fun h => hne h.1.symm)

/-- A wait releases nothing: the `subprocess_t` stays until a close or the
finalizer. -/
theorem released_wait : Released (ls ++ [.on j (.wait answer)]) i ↔ Released ls i :=
  released_append_on.trans (or_iff_left fun h => h.2)

/-- Before a release there is a first call, which may be that release. -/
theorem Released.exists_firstCall (h : Released ls i) : ∃ c, firstCall ls i = some c := by
  obtain ⟨c, hc, -⟩ := h
  refine Option.isSome_iff_exists.1 (List.findSome?_isSome_iff.2 ⟨_, hc, ?_⟩)
  exact congrArg Option.isSome (if_pos rfl)

/-- A release is no wait: these are different calls of the object. -/
theorem ObjectCall.Releases.not_waits (h : c.Releases) : ¬c.Waits := by
  rintro ⟨status, rfl⟩
  exact h

/-- Only `waitpid` reaps, and `psclose` does not call it: it sends its signals
whether the child runs or has ended. -/
theorem reap_psclose (ps : Subprocess) (gone : ℕ → Bool) (children : List (ℕ × ℕ)) :
    reap answer children (psclose ps gone) = children := by
  have hkeep : ∀ calls : List SysCall, (∀ call ∈ calls, ∀ pid, call ≠ .waitpid pid) →
      reap answer children calls = children := by
    intro calls hcalls
    induction calls with
    | nil => rfl
    | cons call calls ih =>
      rw [List.forall_mem_cons] at hcalls
      rw [reap, List.foldl_cons]
      cases call with
      | waitpid pid => exact absurd rfl (hcalls.1 pid)
      | close | kill | free | write | read => exact ih hcalls.2
  refine hkeep _ fun call hcall pid => ?_
  rintro rfl
  rw [psclose] at hcall
  rcases List.mem_append.1 hcall with hcall | hcall
  · split_ifs at hcall
    · rcases List.mem_cons.1 hcall with hcall | hcall
      · cases hcall
      rcases List.mem_cons.1 hcall with hcall | hcall
      · cases hcall
      obtain ⟨sig, hsig⟩ := mem_killLoop hcall
      cases hsig
    · exact List.not_mem_nil hcall
  · cases List.mem_singleton.1 hcall

/-- The books of an object need only its own calls and its own child, so they
stay as they are when only others change. -/
theorem EntryBooks.congr {ms : List ProcessCall} {children : List (ℕ × ℕ)}
    (h : EntryBooks ls children i e) (hfirst : firstCall ms i = firstCall ls i)
    (hreleased : Released ms i ↔ Released ls i)
    (hchild : ∀ pid, (pid, i) ∈ children' ↔ (pid, i) ∈ children) :
    EntryBooks ms children' i e := by
  rcases h with ⟨ps, hpid, hphase, hrunning, hno⟩ | ⟨ps, hpid, hphase, hheld, c, hc, hiff⟩ |
    ⟨ps, hpid, hblock, hphase, hrel, c, hc, hiff⟩
  · exact .running ps hpid hphase ((hchild _).2 hrunning) (hfirst.trans hno)
  · exact .waited ps hpid hphase (mt hreleased.1 hheld) c (hfirst.trans hc)
      ((exists_congr hchild).trans hiff)
  · exact .freed ps hpid hblock hphase (hreleased.2 hrel) c (hfirst.trans hc)
      ((exists_congr hchild).trans hiff)

/-- **A call on object `j` leaves the books of the others**: it reaps no child
of theirs. -/
theorem Books.set (h : Books ls s) (hj : s.entries[j]? = some e)
    (hsub : children'.Sublist s.children) (hkeep : ∀ d ∈ s.children, d.2 ≠ j → d ∈ children')
    (he' : EntryBooks (ls ++ [.on j c]) children' j e') :
    Books (ls ++ [.on j c]) ⟨s.entries.set j e', children'⟩ := by
  have hlt : j < s.entries.length := (List.getElem?_eq_some_iff.1 hj).1
  refine ⟨(hsub.map Prod.fst).nodup h.pids, fun d hd => ?_, (hsub.map Prod.snd).nodup h.objects,
    fun i f hf => ?_, fun i c' hi => ?_⟩
  · obtain ⟨f, hf⟩ := h.child d (hsub.subset hd)
    rw [List.getElem?_set]
    split_ifs
    · exact ⟨e', rfl⟩
    · exact ⟨f, hf⟩
  · rw [List.getElem?_set] at hf
    split_ifs at hf with hij
    · obtain rfl := Option.some.inj hf
      exact hij ▸ he'
    · have hne : i ≠ j := fun he => hij he.symm
      exact (h.entry i f hf).congr (firstCall_other hne) (released_other hne) fun pid =>
        ⟨fun hd => hsub.subset hd, fun hd => hkeep _ hd hne⟩
  · rw [List.length_set]
    rcases eq_or_ne i j with rfl | hne
    · exact hlt
    · exact h.opened i c' ((firstCall_other hne).symm.trans hi)

/-- The state behind a call on an object, from what the call does. -/
theorem next_on (hj : s.entries[j]? = some e) {r : PsOutcome} (hr : s.outcome e c = .ok r) :
    s.next (.on j c) =
      ⟨s.entries.set j ⟨r.obj, e.pid, e.collectedAfter c⟩, reap c.answer s.children r.calls⟩ := by
  simp only [Processes.next, hj, hr]

/-- **A close or the finalizer** on an object in a phase.  It frees the block
and reaps nothing: `psclose` sends signals and does not wait. -/
theorem outcome_release {ps : Subprocess} {ph : Phase} (hpid : 0 < ps.pid)
    (h : InPhase ps ph e.obj) (hc : c.Releases) :
    ∃ r, s.outcome e c = .ok r ∧ reap c.answer s.children r.calls = s.children ∧
      r.obj.block = none ∧ (e.collectedAfter c = false → InPhase ps .released r.obj) := by
  have hreap : reap c.answer s.children (ph.calls ps (.close (s.gone e.pid))) = s.children := by
    cases ph with
    | running => exact reap_psclose ..
    | waited | released => rfl
  cases c with
  | wait answer => exact hc.elim
  | close =>
    obtain ⟨r, hr, hafter, hcalls⟩ := psCall_phase hpid h (.close (s.gone e.pid))
    have hreleased : InPhase ps .released r.obj := by cases ph <;> exact hafter
    exact ⟨r, hr, hcalls ▸ hreap, hreleased.block, fun _ => hreleased⟩
  | finalize =>
    obtain ⟨r, hr, hblock, hcalls⟩ := psobjFinalizer_phase h (s.gone e.pid)
    exact ⟨r, hr, hcalls ▸ hreap, hblock, nofun⟩

/-- **A release leaves the child as it is**, so what the first call has made of
it stays. -/
theorem books_release (h : Books ls s) (hj : s.entries[j]? = some e) (hheld : e.collected = false)
    (hc : c.Releases) : Books (ls ++ [.on j c]) (s.next (.on j c)) := by
  have hkeep : ∀ d ∈ s.children, d.2 ≠ j → d ∈ s.children := fun d hd _ => hd
  have hrel : Released (ls ++ [.on j c]) j := released_append_on.2 (.inr ⟨rfl, hc⟩)
  rcases h.entry j e hj with ⟨ps, hpid, hphase, hchild, hno⟩ |
    ⟨ps, hpid, hphase, -, c', hc', hiff⟩ | ⟨ps, hpid, hblock, hphase, -, c', hc', hiff⟩
  · obtain ⟨r, hr, hreap, hnone, hafter⟩ := outcome_release (s := s) hpid hphase hc
    rw [next_on hj hr, hreap]
    exact h.set hj (List.Sublist.refl _) hkeep (.freed ps hpid hnone hafter hrel c
      (firstCall_first hno) (iff_of_true ⟨_, hchild⟩ hc.not_waits))
  · obtain ⟨r, hr, hreap, hnone, hafter⟩ := outcome_release (s := s) hpid hphase hc
    rw [next_on hj hr, hreap]
    exact h.set hj (List.Sublist.refl _) hkeep
      (.freed ps hpid hnone hafter hrel c' (firstCall_later hc') hiff)
  · obtain ⟨r, hr, hreap, hnone, hafter⟩ := outcome_release (s := s) hpid (hphase hheld) hc
    rw [next_on hj hr, hreap]
    exact h.set hj (List.Sublist.refl _) hkeep
      (.freed ps hpid hnone hafter hrel c' (firstCall_later hc') hiff)

/-- A process id and an object say the same of a child: the kernel does not give
out the id of a child that is not reaped. -/
theorem Books.pid_iff (h : Books ls s) {pid : ℕ} (hchild : (pid, j) ∈ s.children) {d : ℕ × ℕ}
    (hd : d ∈ s.children) : d.1 = pid ↔ d.2 = j := by
  constructor
  · intro hdpid
    rw [List.inj_on_of_nodup_map h.pids hd hchild hdpid]
  · intro hdj
    rw [List.inj_on_of_nodup_map h.objects hd hchild hdj]

/-- **The first wait reaps the child**, if `waitpid` succeeds.  If it fails the
child stays, and no later wait asks for it, as `ps->pid` is 0 by then. -/
theorem books_wait (h : Books ls s) (hj : s.entries[j]? = some e) (hheld : e.collected = false)
    (answer : Option ℕ) : Books (ls ++ [.on j (.wait answer)]) (s.next (.on j (.wait answer))) := by
  have hkeep : ∀ d ∈ s.children, d.2 ≠ j → d ∈ s.children := fun d hd _ => hd
  rcases h.entry j e hj with ⟨ps, hpid, hphase, hchild, hno⟩ |
    ⟨ps, hpid, hphase, hunreleased, c', hc', hiff⟩ |
    ⟨ps, hpid, hblock, hphase, hrel, c', hc', hiff⟩
  · obtain ⟨r, hr, hafter, hcalls⟩ := psCall_phase hpid hphase (.wait (s.waitpid answer))
    have hunreleased : ¬Released (ls ++ [.on j (.wait answer)]) j := fun hrel => by
      obtain ⟨c, hc⟩ := (released_wait.1 hrel).exists_firstCall
      exact Option.some_ne_none c (hc.symm.trans hno)
    rw [next_on (c := .wait answer) hj hr, hcalls]
    cases answer with
    | none =>
      refine h.set hj (List.Sublist.refl _) hkeep (.waited ps hpid hafter hunreleased _
        (firstCall_first hno) (iff_of_true ⟨_, hchild⟩ ?_))
      rintro ⟨status, hstatus⟩
      cases hstatus
    | some status =>
      refine h.set hj List.filter_sublist (fun d hd hne => ?_)
        (.waited ps hpid hafter hunreleased _ (firstCall_first hno)
          (iff_of_false ?_ (not_not_intro ⟨status, rfl⟩)))
      · exact List.mem_filter.2 ⟨hd, bne_iff_ne.2 (mt (h.pid_iff hchild hd).1 hne)⟩
      · rintro ⟨pid, hd⟩
        obtain ⟨hd, hdpid⟩ := List.mem_filter.1 hd
        exact mt (h.pid_iff hchild hd).2 (bne_iff_ne.1 hdpid) rfl
  · obtain ⟨r, hr, hafter, hcalls⟩ := psCall_phase hpid hphase (.wait (s.waitpid answer))
    rw [next_on (c := .wait answer) hj hr, hcalls]
    exact h.set hj (List.Sublist.refl _) hkeep
      (.waited ps hpid hafter (mt released_wait.1 hunreleased) c' (firstCall_later hc') hiff)
  · obtain ⟨r, hr, hafter, hcalls⟩ := psCall_phase hpid (hphase hheld) (.wait (s.waitpid answer))
    rw [next_on (c := .wait answer) hj hr, hcalls]
    exact h.set hj (List.Sublist.refl _) hkeep (.freed ps hpid hafter.block (fun _ => hafter)
      (released_wait.2 hrel) c' (firstCall_later hc') hiff)

/-- **A new object has its child**, under an id that no other child has; the
objects before it keep their numbers. -/
theorem books_opens (h : Books ls s) {ps : Subprocess} (hpid : 0 < ps.pid)
    (hfresh : ∀ d ∈ s.children, d.1 ≠ ps.pid) :
    Books (ls ++ [.opens ps]) (s.next (.opens ps)) := by
  have hold : ∀ d ∈ s.children, d.2 < s.entries.length := by
    intro d hd
    obtain ⟨f, hf⟩ := h.child d hd
    exact (List.getElem?_eq_some_iff.1 hf).1
  have hmem : ∀ d, d ∈ s.children ++ [(ps.pid, s.entries.length)] ↔
      d ∈ s.children ∨ d = (ps.pid, s.entries.length) := by
    intro d
    rw [List.mem_append, List.mem_singleton]
  refine ⟨?_, fun d hd => ?_, ?_, fun i f hf => ?_, fun i c hi => ?_⟩
  · rw [Processes.next, List.map_append]
    refine List.nodup_append_comm.1 (List.nodup_cons.2 ⟨fun hpids => ?_, h.pids⟩)
    obtain ⟨d, hd, hdpid⟩ := List.mem_map.1 hpids
    exact hfresh d hd hdpid
  · rcases (hmem d).1 hd with hd | rfl
    · exact ⟨_, (List.getElem?_append_left (hold d hd)).trans
        (List.getElem?_eq_getElem (hold d hd))⟩
    · exact ⟨_, List.getElem?_concat_length⟩
  · rw [Processes.next, List.map_append]
    refine List.nodup_append_comm.1 (List.nodup_cons.2 ⟨fun hobjects => ?_, h.objects⟩)
    obtain ⟨d, hd, hdlast⟩ := List.mem_map.1 hobjects
    exact (hold d hd).ne hdlast
  · rw [Processes.next, List.getElem?_append] at hf
    split_ifs at hf with hlt
    · refine (h.entry i f hf).congr (firstCall_opens ps) (released_opens ps) fun pid => ?_
      rw [Processes.next, hmem]
      refine or_iff_left fun heq => ?_
      exact hlt.ne (congrArg Prod.snd heq)
    · -- the new object
      rw [List.getElem?_singleton] at hf
      split_ifs at hf with hi
      obtain rfl := Option.some.inj hf
      obtain rfl : i = s.entries.length := by omega
      refine .running ps hpid (inPhase_psObject ps) ((hmem _).2 (.inr rfl)) ?_
      refine Option.eq_none_iff_forall_not_mem.2 fun c hc => hlt (h.opened _ c ?_)
      exact (firstCall_opens ps).symm.trans hc
  · rw [Processes.next, List.length_append]
    exact (h.opened i c ((firstCall_opens ps).symm.trans hi)).trans (Nat.lt_succ_self _)

/-- **Every call keeps the books.**  A first wait takes the child out if it
succeeds; a further one finds no pid; a release changes nothing of it. -/
theorem books_next (h : Books ls s) (hl : s.Enabled l) : Books (ls ++ [l]) (s.next l) := by
  cases l with
  | opens ps =>
    obtain ⟨hpid, hfresh⟩ := hl
    exact books_opens h hpid hfresh
  | on i c =>
    obtain ⟨e, he, hheld⟩ := hl
    cases c with
    | wait answer => exact books_wait h he hheld answer
    | close | finalize => exact books_release h he hheld trivial

/-- **The books of every run**, by induction over its calls. -/
theorem books_run (hrun : processes.Run ⟨[], []⟩ ls s) : Books ls s := by
  have hnil : Books [] ⟨[], []⟩ := ⟨List.nodup_nil, nofun, List.nodup_nil, nofun, nofun⟩
  exact Machine.run_induction hnil (fun _ _ _ _ h hl => books_next h hl) hrun

/-- **A freed object has its child exactly if** the first call on it was no wait
that succeeded. -/
theorem Books.freed (h : Books ls s) (hfreed : Freed s i) :
    Released ls i ∧ ∃ c, firstCall ls i = some c ∧ (Unreaped s i ↔ ¬c.Waits) := by
  obtain ⟨e, he, hblock⟩ := hfreed
  rcases h.entry i e he with ⟨ps, -, hphase, -, -⟩ | ⟨ps, -, hphase, -, -, -, -⟩ |
    ⟨-, -, -, -, hrel, c, hc, hiff⟩
  · exact absurd (hphase.block.symm.trans hblock) (Option.some_ne_none _)
  · exact absurd (hphase.block.symm.trans hblock) (Option.some_ne_none _)
  · exact ⟨hrel, c, hc, hiff⟩

/-- An object that was released is freed, as a block is not given back twice.
Of the three states it can be in, this is the one with a release behind it. -/
theorem Books.released (h : Books ls s) (hrel : Released ls i) : Freed s i := by
  obtain ⟨c, hc⟩ := hrel.exists_firstCall
  have hlt := h.opened i c hc
  have he : s.entries[i]? = some s.entries[i] := List.getElem?_eq_getElem hlt
  rcases h.entry i _ he with ⟨-, -, -, -, hno⟩ | ⟨-, -, -, hheld, -⟩ | ⟨-, -, hblock, -⟩
  · cases hno.symm.trans hc
  · exact absurd hrel hheld
  · exact ⟨_, he, hblock⟩

/-- Children that are not reaped have live objects, each its own.  So there are
no more of them than of the objects. -/
theorem Books.count_le (h : Books ls s) (hfreed : ∀ i, Freed s i → ¬Unreaped s i) :
    s.children.length ≤ s.live.length := by
  have hsub : s.children.map Prod.snd ⊆ s.live := by
    intro i hi
    obtain ⟨⟨pid, i⟩, hd, rfl⟩ := List.mem_map.1 hi
    obtain ⟨e, he⟩ := h.child _ hd
    refine List.mem_filter.2 ⟨List.mem_range.2 (List.getElem?_eq_some_iff.1 he).1, ?_⟩
    rw [he, Option.bind_some, Option.isSome_iff_ne_none]
    exact fun hblock => hfreed i ⟨e, he, hblock⟩ ⟨pid, hd⟩
  have hle := (h.objects.subperm hsub).length_le
  rwa [List.length_map] at hle

/-- The children are reaped exactly if the released objects were waited for
first.  This is one state of the run; the calls `ls` are those before it. -/
theorem reaped_iff (h : Books ls s) : Reaped s ↔ WaitedFirst ls := by
  constructor
  · intro hreaped i hrel
    have hfreed := h.released hrel
    obtain ⟨-, c, hc, hiff⟩ := h.freed hfreed
    exact ⟨c, hc, Classical.not_not.1 fun hwaits => hreaped.freed i hfreed (hiff.2 hwaits)⟩
  · intro hfirst
    have hfreed : ∀ i, Freed s i → ¬Unreaped s i := by
      intro i hi hun
      obtain ⟨hrel, c, hc, hiff⟩ := h.freed hi
      obtain ⟨c', hc', hwaits⟩ := hfirst i hrel
      obtain rfl := Option.some.inj (hc.symm.trans hc')
      exact hiff.1 hun hwaits
    exact ⟨hfreed, h.count_le hfreed⟩

/-- The first calls of a beginning of the run are those of the run.  So a run
that meets the condition has met it all the time. -/
theorem WaitedFirst.of_append {ms : List ProcessCall} (h : WaitedFirst (ls ++ ms)) :
    WaitedFirst ls := by
  intro i hrel
  obtain ⟨c, hc⟩ := hrel.exists_firstCall
  obtain ⟨r, hr, hreleases⟩ := hrel
  obtain ⟨c', hc', hwaits⟩ := h i ⟨r, List.mem_append_left _ hr, hreleases⟩
  obtain rfl := Option.some.inj ((firstCall_later hc).symm.trans hc')
  exact ⟨c, hc, hwaits⟩

/-- **In every state of a run the freed objects have no children left exactly
if** each object that close or the finalizer is called on was first waited for,
with a `waitpid` that succeeds.  `pswait` sets `ps->pid` to 0 whatever `waitpid`
answers, so a wait that fails cannot be made good. -/
theorem childrenReaped_iff (hrun : processes.Run ⟨[], []⟩ ls t) :
    (∀ before after u, ls = before ++ after → processes.Run ⟨[], []⟩ before u → Reaped u) ↔
      WaitedFirst ls := by
  constructor
  · intro hall
    exact (reaped_iff (books_run hrun)).1 (hall ls [] t (List.append_nil ls).symm hrun)
  · rintro hfirst before after u rfl hu
    exact (reaped_iff (books_run hu)).2 hfirst.of_append

/-- The hypothesis is satisfiable, for two requests of which one waits in vain. -/
theorem childrenReaped_iff_uptime :
    (∀ before after u, [.opens ⟨4711, 5, 6⟩, .opens ⟨4712, 7, 8⟩, .on 1 (.wait (some 0)),
        .on 0 (.wait none), .on 1 .close, .on 1 .finalize] = before ++ after →
      processes.Run ⟨[], []⟩ before u → Reaped u) ↔
      WaitedFirst [.opens ⟨4711, 5, 6⟩, .opens ⟨4712, 7, 8⟩, .on 1 (.wait (some 0)),
        .on 0 (.wait none), .on 1 .close, .on 1 .finalize] := by
  refine childrenReaped_iff ⟨⟨?_, nofun⟩, ⟨?_, ?_⟩, ⟨_, rfl, rfl⟩, ⟨_, rfl, rfl⟩, ⟨_, rfl, rfl⟩,
    ⟨_, rfl, rfl⟩, rfl⟩
  · exact Nat.succ_pos _
  · exact Nat.succ_pos _
  · exact List.forall_mem_singleton.2 (Nat.ne_of_lt (Nat.lt_succ_self _))

/-- The script that is tested opens a process and does not wait for it: the
finalizer leaves the child to nobody. -/
theorem uptime_unreaped :
    ∃ t, processes.Run ⟨[], []⟩ [.opens ⟨4711, 5, 6⟩, .on 0 .finalize] t ∧ ¬Reaped t := by
  refine ⟨_, ⟨⟨Nat.succ_pos _, nofun⟩, ⟨_, rfl, rfl⟩, rfl⟩, fun hreaped => ?_⟩
  exact hreaped.freed 0 ⟨_, rfl, rfl⟩ ⟨4711, List.mem_singleton_self _⟩

end Books

end Pylib
end Dukserver
