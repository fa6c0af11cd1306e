/-
# Programs that allocate

A program calls `http_malloc`, `http_realloc` and `http_free`, which keep the ledger of
`Sys.Memory`.  Which addresses `malloc` and `realloc` answer is in an `Allocator`: any
function of what has happened so far that never answers `NULL` or another live block.  The
state of a program is the ledger and what has happened; the latter also has the writes
whose bounds are in question.  The ledger is not what is behind the end of a block.

The specifications are in terms of the live blocks as a multiset, so the blocks a program
does not touch are a further summand.
-/

import Dukserver.Lib.Effects
import Dukserver.Sys.Memory
import Mathlib.Algebra.Order.BigOperators.Group.List
import Mathlib.Algebra.Order.Group.Multiset
import Mathlib.Tactic.Abel

namespace Dukserver
namespace Sys

open Lib.Effects (Prog Ends Post exec post_pure post_of_exec_ok post_of_exec_error)

/-- What a program does to memory. -/
inductive Event
  /-- A call of the ledger and the answer it gets. -/
  | call (c : Call)
  /-- Writing so many bytes from an index on to a block that was allocated with
  this size. -/
  | write (start : ℤ) (len : ℕ) (size : ℤ)
  deriving DecidableEq, Repr

/-- Where `malloc` and `realloc` put a block of this size, from what has
happened and the other live blocks. -/
structure Allocator where
  answer : List Event → List (ℕ × ℤ) → ℤ → ℕ
  fresh : ∀ events others size, Fresh others (answer events others size)

/-- The addresses an event is about. -/
def Event.addr : Event → ℕ
  | .call (.malloc _ a) => a
  | .call (.realloc p _ a) => p + a
  | .call (.free p) => p
  | .write _ _ _ => 0

/-- Memory that is never used twice. -/
def neverReused : Allocator where
  answer events others _ := (events.map Event.addr).sum + (others.map Prod.fst).sum + 1
  fresh events others _ := ⟨by omega, fun hmem => by
    have hle := List.le_sum_of_mem hmem
    omega⟩

/-- The ledger, and what has happened, the last first. -/
structure Heap where
  map : MemoryMap
  events : List Event

/-- Behind `http_init`. -/
def Heap.init : Heap := ⟨httpInit, []⟩

/-- A program that allocates. -/
abbrev Alloc (α : Type) := Prog Exit Heap α

/-- A call of the ledger. -/
def ledgerCall (c : Call) : Alloc PUnit := do
  let h ← get
  match c.ledger h.map with
  | .error e => throw e
  | .ok map => set { h with map, events := .call c :: h.events }

/-- `http_malloc`. -/
def httpMalloc (A : Allocator) (size : ℤ) : Alloc ℕ := do
  let h ← get
  let a := A.answer h.events (live h.map) size
  ledgerCall (.malloc size a)
  return a

/-- `http_realloc`. -/
def httpRealloc (A : Allocator) (p : ℕ) (size : ℤ) : Alloc ℕ := do
  let h ← get
  let a := A.answer h.events (Lib.Assoc.erase p (live h.map)) size
  ledgerCall (.realloc p size a)
  return a

/-- `http_free`. -/
def httpFree (p : ℕ) : Alloc PUnit := ledgerCall (.free p)

/-- Bytes are written. -/
def writeBytes (start : ℤ) (len : ℕ) (size : ℤ) : Alloc PUnit :=
  modify fun h => { h with events := .write start len size :: h.events }

variable {A : Allocator} {h : Heap} {blocks : List (ℕ × ℤ)} {c : Call} {map : MemoryMap}
  {e : Exit} {p : ℕ} {n size : ℤ}

/-- A call that the ledger allows changes it and is written down. -/
theorem ledgerCall_ok (hc : c.ledger h.map = .ok map) :
    exec (ledgerCall c) h = (.ok ⟨⟩, ⟨map, .call c :: h.events⟩) := by
  rw [ledgerCall, Lib.Effects.exec_bind_ok Lib.Effects.exec_get, hc]
  rfl

/-- A call that the ledger does not allow ends the process before anything else
has happened. -/
theorem ledgerCall_error (hc : c.ledger h.map = .error e) :
    exec (ledgerCall c) h = (.error e, h) := by
  rw [ledgerCall, Lib.Effects.exec_bind_ok Lib.Effects.exec_get, hc]
  rfl

/-- **`http_malloc` adds a block**, as long as there is a free entry: the scan
for one finds it, and the address is that of no other block. -/
theorem httpMalloc_exec (hh : Holds h.map blocks) (hroom : blocks.length < MEMORY_LEN)
    (size : ℤ) {a : ℕ} (ha : A.answer h.events (live h.map) size = a) :
    ∃ map, exec (httpMalloc A size) h = (.ok a, ⟨map, .call (.malloc size a) :: h.events⟩) ∧
      Holds map ((a, size) :: blocks) ∧ a ∉ blocks.map Prod.fst := by
  have hfresh := A.fresh h.events (live h.map) size
  rw [ha] at hfresh
  have hnot : a ∉ blocks.map Prod.fst := fun hmem =>
    hfresh.2 ((hh.perm.map Prod.fst).mem_iff.2 hmem)
  obtain ⟨map, hmap, hlength, hperm⟩ := httpMalloc_live
    (by rw [hh.perm.length_eq, hh.length]; exact hroom) size hfresh.1
  refine ⟨map, ?_, ⟨hlength.trans hh.length, hperm.trans (hh.perm.cons _), ?_, ?_⟩, hnot⟩
  · have hcall : (Call.malloc size a).ledger h.map = .ok map := hmap
    rw [httpMalloc, Lib.Effects.exec_bind_ok Lib.Effects.exec_get, ha,
      Lib.Effects.exec_bind_ok (ledgerCall_ok hcall)]
    rfl
  · exact List.nodup_cons.2 ⟨hnot, hh.nodup⟩
  · exact fun h0 => (List.mem_cons.1 h0).elim (fun h0 => hfresh.1 h0.symm) hh.not_null

/-- **`http_free` takes a block out.**  It finds the one entry of that address,
as the live blocks have distinct addresses. -/
theorem httpFree_exec (hh : Holds h.map ((p, n) :: blocks)) :
    ∃ map, exec (httpFree p) h = (.ok ⟨⟩, ⟨map, .call (.free p) :: h.events⟩) ∧
      Holds map blocks := by
  obtain ⟨hnot, hnodup⟩ := List.nodup_cons.1 hh.nodup
  have hnull := fun h0 => hh.not_null (List.mem_cons_of_mem _ h0)
  have hp0 : p ≠ 0 := fun h0 => hh.not_null (h0 ▸ List.mem_cons_self ..)
  obtain ⟨map, hmap, hlength, hperm⟩ := httpFree_live hh.perm hnot hp0
  exact ⟨map, ledgerCall_ok hmap, hlength.trans hh.length, hperm, hnodup, hnull⟩

/-- **`http_realloc` replaces a block** in the entry that it has, so it needs no
free one. -/
theorem httpRealloc_exec (hh : Holds h.map ((p, n) :: blocks)) (size : ℤ) {a : ℕ}
    (ha : A.answer h.events (Lib.Assoc.erase p (live h.map)) size = a) :
    ∃ map, exec (httpRealloc A p size) h =
        (.ok a, ⟨map, .call (.realloc p size a) :: h.events⟩) ∧
      Holds map ((a, size) :: blocks) ∧ a ∉ blocks.map Prod.fst := by
  obtain ⟨hnotp, hnodup⟩ := List.nodup_cons.1 hh.nodup
  have hp0 : p ≠ 0 := fun h0 => hh.not_null (h0 ▸ List.mem_cons_self ..)
  have hfresh := A.fresh h.events (Lib.Assoc.erase p (live h.map)) size
  rw [ha] at hfresh
  have hnot : a ∉ blocks.map Prod.fst := fun hmem =>
    hfresh.2 (((Lib.Assoc.perm_erase hh.perm hh.nodup).map Prod.fst).mem_iff.2 hmem)
  obtain ⟨map, hmap, hlength, hperm⟩ := httpRealloc_live hh.perm hnotp hp0 size hfresh.1
  refine ⟨map, ?_, ⟨hlength.trans hh.length, hperm, ?_, ?_⟩, hnot⟩
  · have hcall : (Call.realloc p size a).ledger h.map = .ok map := hmap
    rw [httpRealloc, Lib.Effects.exec_bind_ok Lib.Effects.exec_get, ha,
      Lib.Effects.exec_bind_ok (ledgerCall_ok hcall)]
    rfl
  · exact List.nodup_cons.2 ⟨hnot, hnodup⟩
  · exact fun h0 => (List.mem_cons.1 h0).elim (fun h0 => hfresh.1 h0.symm)
      fun h0 => hh.not_null (List.mem_cons_of_mem _ h0)

/-! ### What a program owns -/

/-- Blocks, each with its size. -/
abbrev Blocks := Multiset (ℕ × ℤ)

/-- One block. -/
def block (p : ℕ) (size : ℤ) : Blocks := {(p, size)}

/-- The live blocks of the ledger are these. -/
def Owns (h : Heap) (M : Blocks) : Prop := ∃ l : List (ℕ × ℤ), Holds h.map l ∧ M = l

variable {M : Blocks}

/-- A block is one entry of the ledger, whatever its size. -/
@[simp] theorem card_block (p : ℕ) (size : ℤ) : (block p size).card = 1 := Multiset.card_singleton _

/-- A process starts without blocks. -/
theorem owns_init : Owns .init 0 := ⟨[], holds_init, rfl⟩

/-- What is owned may be written as it is needed, since the order of the blocks
does not count. -/
theorem Owns.of_eq {L : Blocks} (ho : Owns h M) (hM : M = L) : Owns h L := hM ▸ ho

/-- Two owners own different blocks, as no address is live twice.  So what one
of them frees is not what the other uses. -/
theorem Owns.disjoint {L : Blocks} (ho : Owns h (L + M)) {b : ℕ × ℤ} (hb : b ∈ L) : b ∉ M := by
  intro hM
  obtain ⟨l, hl, hsum⟩ := ho
  have hnodup : (L + M).Nodup := by
    rw [hsum]
    exact Multiset.coe_nodup.2 (List.Nodup.of_map _ hl.nodup)
  exact Multiset.disjoint_left.1 (Multiset.nodup_add.1 hnodup).2.2 hb hM

/-- What is owned is what is live, up to the order of the entries. -/
theorem Owns.live_eq (ho : Owns h M) : (live h.map : Blocks) = M := by
  obtain ⟨l, hl, rfl⟩ := ho
  exact Multiset.coe_eq_coe.2 hl.perm

/-- A block is live exactly if it is owned. -/
theorem Owns.mem_iff (ho : Owns h M) {b : ℕ × ℤ} : b ∈ live h.map ↔ b ∈ M := by
  rw [← ho.live_eq]
  rfl

/-- A block that is owned, and the others: the form in which `http_free` and
`http_realloc` find it. -/
theorem Owns.exists_rest (ho : Owns h (block p n + M)) :
    ∃ l : List (ℕ × ℤ), Holds h.map ((p, n) :: l) ∧ M = l := by
  obtain ⟨l, hl, hM⟩ := ho
  obtain ⟨rest, rfl⟩ : ∃ rest : List (ℕ × ℤ), (rest : Blocks) = M := Quot.exists_rep M
  refine ⟨rest, hl.of_perm (Multiset.coe_eq_coe.1 ?_), rfl⟩
  rw [← hM]
  exact Multiset.singleton_add _ _

/-- **The rule for `http_malloc`**: one more block, and those of everybody else
stay the summand they were. -/
theorem httpMalloc_ends (ho : Owns h M) (hroom : M.card < MEMORY_LEN) (size : ℤ) :
    Ends (httpMalloc A size) h fun a t => Owns t (block a size + M) := by
  obtain ⟨l, hl, rfl⟩ := ho
  obtain ⟨map, hexec, hholds, -⟩ := httpMalloc_exec (A := A) hl hroom size rfl
  exact ⟨_, _, hexec, _, hholds, Multiset.singleton_add _ _⟩

/-- **The rule for `http_realloc`**: the block is another one then, whose size
is the new one. -/
theorem httpRealloc_ends (ho : Owns h (block p n + M)) (size : ℤ) :
    Ends (httpRealloc A p size) h fun a t => Owns t (block a size + M) := by
  obtain ⟨l, hl, rfl⟩ := ho.exists_rest
  obtain ⟨map, hexec, hholds, -⟩ := httpRealloc_exec (A := A) hl size rfl
  exact ⟨_, _, hexec, _, hholds, Multiset.singleton_add _ _⟩

/-! ### Addresses that are used again or not -/

/-- The block at the address has just been freed. -/
structure JustFreed (p : ℕ) (h : Heap) : Prop where
  last : ∃ events, h.events = .call (.free p) :: events
  fresh : Fresh (live h.map) p

/-- The address was in use, and now it is free. -/
structure Gone (p : ℕ) (h : Heap) : Prop where
  used : p ≤ (h.events.map Event.addr).sum
  fresh : Fresh (live h.map) p

/-- The block that has just been freed is given out next. -/
def GivesBack (A : Allocator) : Prop :=
  ∀ events others size p, Fresh others p → A.answer (.call (.free p) :: events) others size = p

/-- Memory that is used again right after it has been freed, and never later. -/
def lastFreed : Allocator where
  answer events others size :=
    match events with
    | .call (.free p) :: _ =>
      if Fresh others p then p else neverReused.answer events others size
    | _ => neverReused.answer events others size
  fresh events others size := by
    split
    · split_ifs with hp
      · exact hp
      · exact neverReused.fresh ..
    · exact neverReused.fresh ..

/-- An allocator that gives back what was freed last is one that gives it back
if it can. -/
theorem givesBack_lastFreed : GivesBack lastFreed := fun _ _ _ _ hp => if_pos hp

/-- An address that was just freed is gone: it was used before, and it is not
live. -/
theorem JustFreed.gone (h' : JustFreed p h) : Gone p h := by
  obtain ⟨events, hevents⟩ := h'.last
  refine ⟨?_, h'.fresh⟩
  rw [hevents, List.map_cons, List.sum_cons]
  exact Nat.le_add_right _ _

/-- **The rule for `http_free`**, with what is known of the address behind it:
it is the last one that was freed, and no block is there. -/
theorem httpFree_justFreed (ho : Owns h (block p n + M)) :
    Ends (httpFree p) h fun _ t => Owns t M ∧ JustFreed p t := by
  obtain ⟨l, hl, rfl⟩ := ho.exists_rest
  obtain ⟨map, hexec, hholds⟩ := httpFree_exec hl
  refine ⟨_, _, hexec, ⟨l, hholds, rfl⟩, ⟨_, rfl⟩, fun h0 => hl.not_null ?_, fun hp => ?_⟩
  · exact h0 ▸ List.mem_cons_self ..
  · exact (List.nodup_cons.1 hl.nodup).1 ((hholds.perm.map Prod.fst).mem_iff.1 hp)

/-- The rule for `http_free`, where only the blocks that are left matter. -/
theorem httpFree_ends (ho : Owns h (block p n + M)) :
    Ends (httpFree p) h fun _ t => Owns t M :=
  (httpFree_justFreed ho).mono fun _ _ ht => ht.1

/-- **A second `http_free` ends the process** while the address is free: the
scan of the ledger does not find it. -/
theorem Gone.httpFree_exec (hg : Gone p h) : exec (httpFree p) h = (.error (.freeNotExist p), h) :=
  ledgerCall_error (httpFree_not_live hg.fresh.2 hg.fresh.1)

/-- What is live behind a call of `malloc` or `realloc` was live before or is
the answer, as one entry is written and no other one is touched. -/
theorem mem_live_set {i : ℕ} {e : HttpMemory} {b : ℕ × ℤ} (hb : b ∈ live (h.map.set i e)) :
    b.1 = e.p ∨ b ∈ live h.map := by
  obtain ⟨e', he', rfl⟩ := List.mem_map.1 hb
  obtain ⟨hmem, hp⟩ := List.mem_filter.1 he'
  rcases List.mem_or_eq_of_mem_set hmem with hmem | rfl
  · exact .inr (List.mem_map.2 ⟨e', List.mem_filter.2 ⟨hmem, hp⟩, rfl⟩)
  · exact .inl rfl

/-- What `malloc` or `realloc` answers. -/
def Call.answer : Call → ℕ
  | .malloc _ a => a
  | .realloc _ _ a => a
  | .free _ => 0

/-- What is live behind a call was live before or is the answer.  A call of
`free` answers `NULL`, which no block has for its address. -/
theorem Call.mem_live (hc : c.ledger h.map = .ok map) {b : ℕ × ℤ} (hb : b ∈ live map) :
    b.1 = c.answer ∨ b ∈ live h.map := by
  cases c with
  | malloc size a =>
    rw [Call.ledger, httpMalloc_] at hc
    split at hc <;> cases hc
    exact mem_live_set hb
  | realloc p size a =>
    rw [Call.ledger, httpRealloc_] at hc
    split at hc <;> cases hc
    exact mem_live_set hb
  | free p =>
    rw [Call.ledger, httpFree_] at hc
    split_ifs at hc
    · cases hc
      exact .inr hb
    · split at hc <;> cases hc
      exact mem_live_set hb

/-- Behind a call. -/
structure Called (c : Call) (h t : Heap) : Prop where
  events : t.events = .call c :: h.events
  live : ∀ b ∈ live t.map, b.1 = c.answer ∨ b ∈ live h.map

/-- **However a call ends**: an error comes before anything has happened.  So a
program that is ended by the ledger has made all the calls before that one. -/
theorem ledgerCall_post (c : Call) (h : Heap) :
    Post (ledgerCall c) h (fun _ t => Called c h t) fun _ t => t = h := by
  cases hc : c.ledger h.map with
  | error e => exact post_of_exec_error (ledgerCall_error hc) rfl
  | ok map => exact post_of_exec_ok (ledgerCall_ok hc) ⟨rfl, fun b hb => Call.mem_live hc hb⟩

/-- What `http_malloc` does, however it ends: the address is the allocator's
answer to what has happened so far. -/
theorem httpMalloc_post (A : Allocator) (size : ℤ) (h : Heap) : Post (httpMalloc A size) h
    (fun a t => a = A.answer h.events (live h.map) size ∧ Called (.malloc size a) h t)
    fun _ t => t = h := by
  refine (Lib.Effects.post_get h).seq ?_
  rintro _ _ ⟨rfl, rfl⟩
  exact (ledgerCall_post _ _).seq fun _ t ht => post_pure ⟨rfl, ht⟩

/-- What `http_realloc` does, however it ends.  The allocator is asked with the
old block out of its way, so the answer may be the old address. -/
theorem httpRealloc_post (A : Allocator) (p : ℕ) (size : ℤ) (h : Heap) :
    Post (httpRealloc A p size) h
      (fun a t => a = A.answer h.events (Lib.Assoc.erase p (live h.map)) size ∧
        Called (.realloc p size a) h t)
      fun _ t => t = h := by
  refine (Lib.Effects.post_get h).seq ?_
  rintro _ _ ⟨rfl, rfl⟩
  exact (ledgerCall_post _ _).seq fun _ t ht => post_pure ⟨rfl, ht⟩

/-- A call that answers another address does not give it back.  No other address
becomes live by a call. -/
theorem Gone.called {t : Heap} (hg : Gone p h) (hc : Called c h t) (hp : c.answer ≠ p) :
    Gone p t := by
  refine ⟨?_, hg.fresh.1, fun hmem => ?_⟩
  · rw [hc.events, List.map_cons, List.sum_cons]
    exact hg.used.trans (Nat.le_add_left _ _)
  · obtain ⟨b, hb, rfl⟩ := List.mem_map.1 hmem
    rcases hc.live b hb with hb | hb
    · exact hp hb.symm
    · exact hg.fresh.2 (List.mem_map_of_mem hb)

/-- The allocator that never uses memory twice answers beyond the sum of all
addresses so far, and so beyond each of them. -/
theorem lt_neverReused (events : List Event) (others : List (ℕ × ℤ)) (size : ℤ) :
    (events.map Event.addr).sum < neverReused.answer events others size :=
  Nat.lt_succ_of_le (Nat.le_add_right _ _)

/-- An address that is gone stays so if memory is never used twice: the answer
is greater than it. -/
theorem Gone.httpMalloc (hg : Gone p h) (size : ℤ) :
    Post (httpMalloc neverReused size) h (fun _ t => Gone p t) fun _ _ => True :=
  (httpMalloc_post ..).mono
    (fun _ _ ⟨ha, hc⟩ => hg.called hc (hg.used.trans_lt (ha ▸ lt_neverReused ..)).ne')
    fun _ _ _ => trivial

/-- The same of `http_realloc`. -/
theorem Gone.httpRealloc (hg : Gone p h) (q : ℕ) (size : ℤ) :
    Post (httpRealloc neverReused q size) h (fun _ t => Gone p t) fun _ _ => True :=
  (httpRealloc_post ..).mono
    (fun _ _ ⟨ha, hc⟩ => hg.called hc (hg.used.trans_lt (ha ▸ lt_neverReused ..)).ne')
    fun _ _ _ => trivial

/-- Writing gives no address back. -/
theorem Gone.writeBytes (hg : Gone p h) (start : ℤ) (len : ℕ) (size : ℤ) :
    Post (writeBytes start len size) h (fun _ t => Gone p t) fun _ _ => True :=
  post_of_exec_ok Lib.Effects.exec_modify ⟨hg.used.trans (by simp), hg.fresh⟩

/-! ### Bounds -/

/-- Each byte is written to an index of the block. -/
def Event.InBounds : Event → Prop
  | .call _ => True
  | .write start len size => ∀ i < len, 0 ≤ start + i ∧ start + i < size

/-- Everything that was written was written to an index of its block. -/
def Heap.InBounds (h : Heap) : Prop := ∀ e ∈ h.events, e.InBounds

/-- A call writes nothing, so whether all writes were in bounds is decided by
the others. -/
theorem inBounds_called {t : Heap} (hc : Called c h t) : t.InBounds ↔ h.InBounds := by
  rw [Heap.InBounds, hc.events, List.forall_mem_cons]
  exact and_iff_right trivial

/-- A write is in bounds if each of its bytes is, and is added to those before
it. -/
theorem writeBytes_post {E : Exit → Heap → Prop} (start : ℤ) (len : ℕ) (size : ℤ) :
    Post (writeBytes start len size) h
      (fun _ t => t.InBounds ↔ (∀ i < len, 0 ≤ start + i ∧ start + i < size) ∧ h.InBounds) E :=
  post_of_exec_ok Lib.Effects.exec_modify List.forall_mem_cons

end Sys
end Dukserver
