/-
# A remote call through one slot

Many clients call one server through a single slot.  A client locks the slot,
publishes an argument, and unlocks the slot after it has read the answer; the
server is called with the published argument and returns.  The states of
`rendezvous` are the only ones such a slot may be in, so its runs are what an
implementation with locks, events and shared memory has to be a refinement of.

For every run from the free slot, the arguments the server was called with are
an initial segment of the published ones, those it returned for an initial
segment of these, and an answer that is read is the one the server returned for
the argument of the client that reads it.
-/

import Dukserver.Lib.Machine
import Mathlib.Data.List.Nodup

namespace Dukserver
namespace Lib

/-- Who owns the slot, and how far its call is. -/
inductive Slot (ι α β : Type)
  | free
  | locked (i : ι)
  | published (i : ι) (a : α)
  | running (i : ι) (a : α)
  | returned (i : ι) (a : α) (b : β)
  | answered (i : ι)
  deriving DecidableEq, Repr

namespace Slot

variable {ι α β : Type}

/-- The client that has locked the slot. -/
def owner : Slot ι α β → Option ι
  | free => none
  | locked i | published i _ | running i _ | returned i _ _ | answered i => some i

/-- The argument that is published and that the server was not called with yet. -/
def waiting : Slot ι α β → List α
  | published _ a => [a]
  | _ => []

/-- The argument the server is running on. -/
def active : Slot ι α β → List α
  | running _ a => [a]
  | _ => []

/-- The argument the server is to be called with, or was, and its client. -/
def request : Slot ι α β → Option (ι × α)
  | published i a | running i a | returned i a _ => some (i, a)
  | _ => none

/-- The steps of the clients and of the server; `tau` is one that does not touch
the slot. -/
inductive Label (ι α β : Type)
  | lock (i : ι)
  | publish (i : ι) (a : α)
  | call (a : α)
  | ret (a : α) (b : β)
  | read (i : ι) (a : α) (b : β)
  | unlock (i : ι)
  | tau
  deriving DecidableEq, Repr

/-- When a step of the slot can be made. -/
def Enabled (c : Slot ι α β) : Label ι α β → Prop
  | .lock _ => c = free
  | .publish i _ => c = locked i
  | .call a => ∃ i, c = published i a
  | .ret a _ => ∃ i, c = running i a
  | .read i a b => c = returned i a b
  | .unlock i => c = answered i
  | .tau => True

/-- Where it leads. -/
def next (c : Slot ι α β) : Label ι α β → Slot ι α β
  | .lock i => locked i
  | .publish i a => published i a
  | .call a =>
    match c with
    | published i _ => running i a
    | c => c
  | .ret a b =>
    match c with
    | running i _ => returned i a b
    | c => c
  | .read i _ _ => answered i
  | .unlock _ => free
  | .tau => c

/-- The slot with its clients and its server. -/
def rendezvous (ι α β : Type) : Machine (Slot ι α β) (Label ι α β) where
  Enabled := Enabled
  next := next

/-- The arguments published in a run. -/
def publishes (ls : List (Label ι α β)) : List α :=
  ls.filterMap fun l => match l with
    | .publish _ a => some a
    | _ => none

/-- The arguments the server was called with in a run. -/
def calls (ls : List (Label ι α β)) : List α :=
  ls.filterMap fun l => match l with
    | .call a => some a
    | _ => none

/-- The calls that have returned, with their answers. -/
def returns (ls : List (Label ι α β)) : List (α × β) :=
  ls.filterMap fun l => match l with
    | .ret a b => some (a, b)
    | _ => none

/-- What was returned are the labels that return. -/
theorem mem_returns {ls : List (Label ι α β)} {a : α} {b : β} :
    (a, b) ∈ returns ls ↔ .ret a b ∈ ls := by
  simp only [returns, List.mem_filterMap]
  constructor
  · rintro ⟨l, hl, h⟩
    cases l with
    | ret a' b' =>
      obtain ⟨rfl, rfl⟩ : a' = a ∧ b' = b := by simpa using h
      exact hl
    | _ => simp at h
  · exact fun h => ⟨_, h, rfl⟩

variable {ls : List (Label ι α β)} {c : Slot ι α β}

/-- **Nothing is called that was not published, and nothing twice.**  The calls
of a run are the published arguments in their order, up to the one waiting. -/
theorem publishes_eq (h : (rendezvous ι α β).Run free ls c) :
    publishes ls = calls ls ++ c.waiting := by
  refine Machine.run_induction (P := fun ls c => publishes ls = calls ls ++ c.waiting) rfl
    (fun ls c l _ ih hl => ?_) h
  simp only [publishes, calls, List.filterMap_append] at ih ⊢
  cases l with
  | lock i => obtain rfl : c = free := hl; simpa [rendezvous, next, waiting] using ih
  | publish i a => obtain rfl : c = locked i := hl; simpa [rendezvous, next, waiting] using ih
  | call a => obtain ⟨i, rfl⟩ := hl; simpa [rendezvous, next, waiting] using ih
  | ret a b => obtain ⟨i, rfl⟩ := hl; simpa [rendezvous, next, waiting] using ih
  | read i a b => obtain rfl : c = returned i a b := hl; simpa [rendezvous, next, waiting] using ih
  | unlock i => obtain rfl : c = answered i := hl; simpa [rendezvous, next, waiting] using ih
  | tau => simpa [rendezvous, next] using ih

/-- The calls that returned are the calls of the run, up to the one running, as
the server takes the next one only when it has returned. -/
theorem calls_eq (h : (rendezvous ι α β).Run free ls c) :
    calls ls = (returns ls).map Prod.fst ++ c.active := by
  refine Machine.run_induction
    (P := fun ls c => calls ls = (returns ls).map Prod.fst ++ c.active) rfl
    (fun ls c l _ ih hl => ?_) h
  simp only [returns, calls, List.filterMap_append] at ih ⊢
  cases l with
  | lock i => obtain rfl : c = free := hl; simpa [rendezvous, next, active] using ih
  | publish i a => obtain rfl : c = locked i := hl; simpa [rendezvous, next, active] using ih
  | call a => obtain ⟨i, rfl⟩ := hl; simpa [rendezvous, next, active] using ih
  | ret a b => obtain ⟨i, rfl⟩ := hl; simpa [rendezvous, next, active] using ih
  | read i a b => obtain rfl : c = returned i a b := hl; simpa [rendezvous, next, active] using ih
  | unlock i => obtain rfl : c = answered i := hl; simpa [rendezvous, next, active] using ih
  | tau => simpa [rendezvous, next] using ih

/-- What the slot holds in the state `returned` is what the server returned.
There is no other step into that state, so the label is in the run. -/
theorem ret_mem_of_returned {i : ι} {a : α} {b : β}
    (h : (rendezvous ι α β).Run free ls (returned i a b)) : .ret a b ∈ ls := by
  refine Machine.run_induction (P := fun ls c => ∀ i a b, c = returned i a b → .ret a b ∈ ls)
    (fun _ _ _ h => by cases h) (fun ls c l _ ih hl => ?_) h i a b rfl
  intro i a b hc
  cases l with
  | ret a' b' =>
    obtain ⟨j, rfl⟩ := hl
    obtain ⟨rfl, rfl, rfl⟩ : j = i ∧ a' = a ∧ b' = b := by simpa [rendezvous, next] using hc
    simp
  | call a' => obtain ⟨j, rfl⟩ := hl; simp [rendezvous, next] at hc
  | tau => exact List.mem_append_left _ (ih i a b hc)
  | _ => simp [rendezvous, next] at hc

/-- What the server is called with was published by the owner of the slot.  The
owner does not change as long as the request is in the slot. -/
theorem publish_mem_of_request {i : ι} {a : α} (h : (rendezvous ι α β).Run free ls c)
    (hc : c.request = some (i, a)) : .publish i a ∈ ls := by
  refine Machine.run_induction (P := fun ls c => c.request = some (i, a) → .publish i a ∈ ls)
    (fun h => by cases h) (fun ls c l _ ih hl => ?_) h hc
  intro hc
  cases l with
  | publish j b =>
    obtain ⟨rfl, rfl⟩ : j = i ∧ b = a := by simpa [rendezvous, next, request] using hc
    simp
  | call b => obtain ⟨j, rfl⟩ := hl; exact List.mem_append_left _ (ih hc)
  | ret b _ => obtain ⟨j, rfl⟩ := hl; exact List.mem_append_left _ (ih hc)
  | tau => exact List.mem_append_left _ (ih hc)
  | _ => cases hc

/-- **A read answer is the returned one.**  If no argument is published twice,
the answer a client reads for its argument is the only one the server returns
for it in the whole run. -/
theorem read_eq_ret {ms : List (Label ι α β)} {i : ι} {a : α} {b : β}
    (h : (rendezvous ι α β).Run free (ls ++ .read i a b :: ms) c)
    (hnd : (publishes (ls ++ .read i a b :: ms)).Nodup) :
    .ret a b ∈ ls ∧ ∀ b', .ret a b' ∈ ls ++ .read i a b :: ms → b' = b := by
  obtain ⟨u, hu, hread⟩ := Machine.exists_run_of_split h
  obtain rfl : u = returned i a b := hread
  have hret := ret_mem_of_returned hu
  refine ⟨hret, fun b' hb' => ?_⟩
  have hfst : ((returns (ls ++ .read i a b :: ms)).map Prod.fst).Nodup := by
    rw [publishes_eq h, calls_eq h] at hnd
    exact (List.nodup_append.1 (List.nodup_append.1 hnd).1).1
  have hb : (a, b) ∈ returns (ls ++ .read i a b :: ms) :=
    mem_returns.2 (List.mem_append_left _ hret)
  exact congrArg Prod.snd (List.inj_on_of_nodup_map hfst (mem_returns.2 hb') hb rfl)

/-! ### The order of the clients -/

/-- The arguments published in a run, with their clients. -/
def requests (ls : List (Label ι α β)) : List (ι × α) :=
  ls.filterMap fun l => match l with
    | .publish i a => some (i, a)
    | _ => none

/-- The answers read in a run: the client, its argument and what it reads. -/
def reads (ls : List (Label ι α β)) : List (ι × α × β) :=
  ls.filterMap fun l => match l with
    | .read i a b => some (i, a, b)
    | _ => none

/-- The answer that is to be read. -/
def unread : Slot ι α β → List (α × β)
  | returned _ a b => [(a, b)]
  | _ => []

/-- **Who publishes first reads first.**  The clients read in the order in which
they have published, up to the one whose call is not over. -/
theorem requests_eq (h : (rendezvous ι α β).Run free ls c) :
    requests ls = (reads ls).map (fun p => (p.1, p.2.1)) ++ c.request.toList := by
  refine Machine.run_induction
    (P := fun ls c => requests ls = (reads ls).map (fun p => (p.1, p.2.1)) ++ c.request.toList) rfl
    (fun ls c l _ ih hl => ?_) h
  simp only [requests, reads, List.filterMap_append] at ih ⊢
  cases l with
  | lock i => obtain rfl : c = free := hl; simpa [rendezvous, next, request] using ih
  | publish i a => obtain rfl : c = locked i := hl; simpa [rendezvous, next, request] using ih
  | call a => obtain ⟨i, rfl⟩ := hl; simpa [rendezvous, next, request] using ih
  | ret a b => obtain ⟨i, rfl⟩ := hl; simpa [rendezvous, next, request] using ih
  | read i a b => obtain rfl : c = returned i a b := hl; simpa [rendezvous, next, request] using ih
  | unlock i => obtain rfl : c = answered i := hl; simpa [rendezvous, next, request] using ih
  | tau => simpa [rendezvous, next] using ih

/-- **Every answer is read**, once and in the order of the calls, up to the last
one. -/
theorem returns_eq (h : (rendezvous ι α β).Run free ls c) :
    returns ls = (reads ls).map Prod.snd ++ c.unread := by
  refine Machine.run_induction
    (P := fun ls c => returns ls = (reads ls).map Prod.snd ++ c.unread) rfl
    (fun ls c l _ ih hl => ?_) h
  simp only [returns, reads, List.filterMap_append] at ih ⊢
  cases l with
  | lock i => obtain rfl : c = free := hl; simpa [rendezvous, next, unread] using ih
  | publish i a => obtain rfl : c = locked i := hl; simpa [rendezvous, next, unread] using ih
  | call a => obtain ⟨i, rfl⟩ := hl; simpa [rendezvous, next, unread] using ih
  | ret a b => obtain ⟨i, rfl⟩ := hl; simpa [rendezvous, next, unread] using ih
  | read i a b => obtain rfl : c = returned i a b := hl; simpa [rendezvous, next, unread] using ih
  | unlock i => obtain rfl : c = answered i := hl; simpa [rendezvous, next, unread] using ih
  | tau => simpa [rendezvous, next] using ih

end Slot

end Lib
end Dukserver
