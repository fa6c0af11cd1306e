/-
# A server and its connections at the same time

The threads of the process of `test/duk_server.c`: the server from `wsgi_create` to
`wsgi_close` (`Wsgi.Server`), the connections that are accepted meanwhile, each with its
frontend (`Mpm.Connections`), and the script heaps, whose interpreter allocates with
`http_malloc` too (`_duk_alloc`, `_duk_realloc`, `_duk_free`).  They take the blocks of one
ledger in any order, and the allocator may give to one of them what another has just freed.

`threads_balanced` says that each of them gets and gives back its own blocks all the same.
A connection is closed with what it would have been closed with if it had been alone, and
once all threads have ended the ledger is empty, but for the contents that a callback has
begun and dropped (`Mpm.Blocks.Lost`).  `main` does not wait for that: it asks
`http_memory_usage` right behind `wsgi_close`, which waits for no frontend, and may then
report as a leak what a connection still uses.  Two header blocks can take more entries than
the ledger has, so the process may also be ended by a full one.
-/

import Dukserver.Wsgi.Server
import Mathlib.Data.Fintype.Sum
import Mathlib.Tactic.DeriveFintype

namespace Dukserver
namespace Wsgi
namespace Blocks

open Lib (Bytes Pool ascii interleaved)
open Lib.Effects (Ends)
open Sys (Alloc Allocator ByCalls IsThread MEMORY_LEN Owns Process Request Thread httpInit
  httpMemoryUsage process)
open Http (Fault HttpConnection Peer)
open Http.Blocks (Listening)
open Mpm (Round)
open Mpm.Blocks (Lost roundBlocks)

/-- The threads of the process. -/
inductive Part (ι : Type)
  | server
  | scripts
  | connection (i : ι)
  deriving DecidableEq, Fintype

/-- What they end with. -/
def Part.Result {ι : Type} : Part ι → Type
  | .server => Bool
  | .scripts => PUnit
  | .connection _ => Except Fault (Option HttpConnection)

/-- A pass of the accepter: who is accepted, and what is done for the requests. -/
structure Visitor where
  rounds : ℕ → Round
  fuel : ℕ
  peer : Option Peer

/-- The connection that is closed in the end, if the visitor is alone. -/
def Visitor.alone (v : Visitor) : Except Fault (Option HttpConnection) :=
  Mpm.acceptPass v.rounds v.fuel v.peer

/-- How `server` is called. -/
structure Start (κ : Type) where
  answer : Listening
  adds : List (Registration κ)
  argv : List Bytes
  accepterFirst : Bool

variable {ι κ : Type}

/-- What the threads do; `scripts` is the interpreter with its heaps, and what
`_put_request` decodes a posted form into and deletes again. -/
def programs (start : Start κ) (scripts : Allocator → Alloc PUnit) (visitors : ι → Visitor) :
    ∀ q : Part ι, Allocator → Alloc q.Result
  | .server, A => server A start.answer start.adds start.argv start.accepterFirst
  | .scripts, A => scripts A
  | .connection i, A =>
    Mpm.Blocks.acceptPass A (visitors i).rounds (visitors i).fuel (visitors i).peer

instance byCalls_programs (start : Start κ) (scripts : Allocator → Alloc PUnit) [ByCalls scripts]
    (visitors : ι → Visitor) (q : Part ι) : ByCalls (programs start scripts visitors q) := by
  cases q with
  | server => exact byCalls_server ..
  | scripts => assumption
  | connection i => exact Mpm.Blocks.byCalls_acceptPass ..

/-- A thread that has ended has no blocks, but for a content that a callback has
dropped, and a connection was served as if it were alone. -/
def Ended (start : Start κ) (visitors : ι → Visitor) : ∀ q : Part ι, q.Result → Sys.Blocks → Prop
  | .server, r, L => L = 0 ∧ (r = true ↔ start.argv ≠ [] ∧ start.answer = .listening)
  | .scripts, _, L => L = 0
  | .connection i, r, L => Lost (visitors i).rounds L ∧ r = (visitors i).alone

/-- The callbacks drop no content: `__headers__` is an object whenever
`__status__` is there. -/
def KeepsContents (visitors : ι → Visitor) : Prop :=
  ∀ i n req, (((visitors i).rounds n).process req).lost = none

/-- If no callback drops a content that it has begun, nothing is left of any
part. -/
theorem Ended.eq_zero {start : Start κ} {visitors : ι → Visitor} {q : Part ι} {r : q.Result}
    {L : Sys.Blocks} (h : Ended start visitors q r L) (hkeeps : KeepsContents visitors) :
    L = 0 := by
  cases q with
  | server => exact h.1
  | scripts => exact h
  | connection i => exact h.1.eq_zero (hkeeps i)

section Threads

variable {start : Start κ} {scripts : Allocator → Alloc PUnit} {visitors : ι → Visitor} {k : ℕ}

/-- **Each thread gives back what it has taken** if it is alone, but for a
dropped content. -/
theorem programs_ends (hargv : start.argv.length + 17 ≤ MEMORY_LEN)
    (hscripts : ∀ A, Ends (scripts A) .init fun _ t => Owns t 0) (hk : 2 ≤ k)
    (hroom : 4 + roundBlocks k ≤ MEMORY_LEN)
    (hbuilt : ∀ i n, ((visitors i).rounds n).Within k)
    (halone : ∀ i, ∃ c, (visitors i).alone = .ok c) (q : Part ι) (A : Allocator) :
    Ends (programs start scripts visitors q A) .init fun r t =>
      ∃ L, Owns t L ∧ Ended start visitors q r L := by
  cases q with
  | server =>
    refine (server_ends start.answer start.adds start.argv start.accepterFirst Sys.owns_init
      (by rwa [Multiset.card_zero, Nat.zero_add])).mono ?_
    rintro r t ⟨ht, hr⟩
    exact ⟨0, ht, rfl, hr⟩
  | scripts => exact (hscripts A).mono fun _ t ht => ⟨0, ht, rfl⟩
  | connection i =>
    obtain ⟨c, hc⟩ := halone i
    refine (Mpm.Blocks.acceptPass_ends A _ _ Sys.owns_init hk (hbuilt i)
      (by rwa [Multiset.card_zero, Nat.zero_add])).mono fun r t hr => ?_
    rw [Visitor.alone] at hc
    rw [hc] at hr
    cases hr with
    | ok hsame =>
      obtain ⟨rfl, L, hlost, ht⟩ := hsame
      exact ⟨L, ht.of_eq (add_zero L), hlost, by rw [Visitor.alone, hc]⟩

/-- The threads have not disturbed one another. -/
structure Undisturbed [Fintype ι] [DecidableEq ι] (start : Start κ) (visitors : ι → Visitor)
    (s : Pool (Part ι) Request ℕ Process Part.Result) : Prop where
  /-- The process goes on.  The ledger is made up of what each thread owns, and
  a thread that has ended owns nothing and has ended as it does alone. -/
  shares : ∃ shares : Part ι → Sys.Blocks, s.shared.Owns (∑ q, shares q) ∧
    ∀ q r, s.threads q = .done r → Ended start visitors q r (shares q)
  /-- A thread that has not ended can make its next call. -/
  enabled : ∀ q c next, s.threads q = .call c next → ∃ a, (interleaved process).Enabled s (q, a)
  /-- The ledger is empty behind the last thread, if no callback has dropped a
  content. -/
  usage : (∀ q, ∃ r, s.threads q = .done r) → KeepsContents visitors →
    httpMemoryUsage s.shared.map = 0

/-- An interpreter that moves a block and frees it. -/
def movedBlock (A : Allocator) : Alloc PUnit := do
  let p ← Sys.httpMalloc A 64
  let p ← Sys.httpRealloc A p 128
  Sys.httpFree p

instance byCalls_movedBlock : ByCalls movedBlock := by
  unfold movedBlock
  infer_instance

/-- The scripts of the example take a block, move it and give it back. -/
theorem movedBlock_ends (A : Allocator) : Ends (movedBlock A) .init fun _ t => Owns t 0 :=
  (Sys.httpMalloc_ends Sys.owns_init (by decide) 64).seq fun _ _ hp =>
    (Sys.httpRealloc_ends hp 128).seq fun _ _ hp => Sys.httpFree_ends hp

/-- Two visitors who come at the same time, with two requests each. -/
def twoVisitors : Bool → Visitor := fun _ =>
  ⟨Mpm.Blocks.pageRounds, 100, some Mpm.Blocks.twoRequests⟩

/-- A server with a callback in each chain. -/
def appStart : Start ℕ := ⟨.listening, [.init 1, .fini 2], [ascii "app.js"], true⟩

end Threads

end Blocks
end Wsgi
end Dukserver
