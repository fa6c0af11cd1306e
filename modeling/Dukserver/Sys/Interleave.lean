/-
# Threads that allocate at the same time

`http_malloc_`, `http_realloc_` and `http_free_` (`libhttpd/http_sys_linux.c`) take
`_memory_mutex`, so what threads do to the ledger is an interleaving of their calls, where
`malloc` and `realloc` may answer any address that is not live then.

A thread is the tree of its calls (`Thread`), and `ByCalls` says that a program is one: it
has no other way to see the ledger.  So a program that gives back what it takes when it
runs alone (`Ends`) keeps to its own blocks in every interleaving: `threads_run` says that
the others are not touched, that it ends as it ends alone, and that the process can only
be ended by a ledger in which every entry is taken.
-/

import Dukserver.Lib.Interleave
import Dukserver.Sys.Alloc

namespace Dukserver
namespace Sys

open Lib (Calls Machine Rules Safe Pool interleaved Local Shared)
open Lib.Effects (Ends exec)

/-- A call of the ledger before it is answered. -/
inductive Request
  | malloc (size : ℤ)
  | realloc (p : ℕ) (size : ℤ)
  | free (p : ℕ)
  deriving DecidableEq, Repr

namespace Request

/-- The call with the answer of `malloc` or `realloc`. -/
def answered : Request → ℕ → Call
  | malloc size, a => .malloc size a
  | realloc p size, a => .realloc p size a
  | free p, _ => .free p

/-- The address that is given up, or `NULL`. -/
def freed : Request → ℕ
  | malloc _ => 0
  | realloc p _ => p
  | free p => p

/-- The size of the block that is asked for. -/
def size : Request → Option ℤ
  | malloc n => some n
  | realloc _ n => some n
  | free _ => none

/-- It takes an entry and gives none up. -/
def NeedsEntry (c : Request) : Prop := c.freed = 0 ∧ c.size.isSome

/-- What may be answered while these blocks are live. -/
def MayAnswer : Request → List (ℕ × ℤ) → ℕ → Prop
  | malloc _, blocks, a => Fresh blocks a
  | realloc p _, blocks, a => Fresh (Lib.Assoc.erase p blocks) a
  | free _, _, a => a = 0

/-- The answer of an allocator. -/
def answer (A : Allocator) (h : Heap) : Request → ℕ
  | malloc n => A.answer h.events (live h.map) n
  | realloc p n => A.answer h.events (Lib.Assoc.erase p (live h.map)) n
  | free _ => 0

end Request

/-- A request in a program that runs alone. -/
def ask (A : Allocator) : Request → Alloc ℕ
  | .malloc size => httpMalloc A size
  | .realloc p size => httpRealloc A p size
  | .free p => do
    httpFree p
    return 0

/-- A thread that ends with a value. -/
abbrev Thread (α : Type) := Calls Request ℕ α

/-- The process: its ledger, and how it was ended. -/
structure Process where
  map : MemoryMap
  exit : Option Exit

/-- One request after the other, each with its answer. -/
def process : Machine Process (Request × ℕ) where
  Enabled s l := s.exit = none ∧ l.1.MayAnswer (live s.map) l.2
  next s l :=
    match (l.1.answered l.2).ledger s.map with
    | .ok map => ⟨map, none⟩
    | .error e => ⟨s.map, some e⟩

/-- Every entry of the ledger is taken, and the process has been ended. -/
def Process.Full (s : Process) : Prop := s.exit ≠ none ∧ (live s.map).length = MEMORY_LEN

/-! ### The blocks of one thread -/

/-- The blocks without the one at `p`, which is not there if `p` is `NULL`. -/
def Gives (p : ℕ) (L K : Blocks) : Prop := (p = 0 ∧ K = L) ∨ ∃ n, L = block p n + K

/-- The blocks with the one that was asked for. -/
def Gets : Option ℤ → ℕ → Blocks → Blocks → Prop
  | none, a, K, L => a = 0 ∧ L = K
  | some size, a, K, L => (a ≠ 0 ∧ ∀ n, (a, n) ∉ K) ∧ L = block a size + K

/-- A thread gives up its own blocks, and gets new ones. -/
def ownBlocks : Rules Request ℕ Blocks where
  May c L := ∃ K, Gives c.freed L K
  Becomes c a L L' := ∃ K, Gives c.freed L K ∧ Gets c.size a K L'

variable {A : Allocator} {h t : Heap} {K L F M : Blocks} {map : MemoryMap} {c : Request} {a p : ℕ}
  {size : ℤ} {e : Exit}

/-! ### A request and the ledger -/

/-- A request that the ledger accepts is answered, and the ledger and the events
are as its call leaves them. -/
theorem ask_ok (hc : (c.answered (c.answer A h)).ledger h.map = .ok map) :
    exec (ask A c) h =
      (.ok (c.answer A h), ⟨map, .call (c.answered (c.answer A h)) :: h.events⟩) := by
  cases c with
  | malloc size =>
    rw [ask, httpMalloc, Lib.Effects.exec_bind_ok Lib.Effects.exec_get]
    exact Lib.Effects.exec_bind_ok (ledgerCall_ok hc)
  | realloc p size =>
    rw [ask, httpRealloc, Lib.Effects.exec_bind_ok Lib.Effects.exec_get]
    exact Lib.Effects.exec_bind_ok (ledgerCall_ok hc)
  | free p => exact Lib.Effects.exec_bind_ok (ledgerCall_ok hc)

/-- A request that the ledger does not accept ends the process and leaves
everything as it is. -/
theorem ask_error (hc : (c.answered (c.answer A h)).ledger h.map = .error e) :
    exec (ask A c) h = (.error e, h) := by
  cases c with
  | malloc size =>
    rw [ask, httpMalloc, Lib.Effects.exec_bind_ok Lib.Effects.exec_get]
    exact Lib.Effects.exec_bind_error (ledgerCall_error hc)
  | realloc p size =>
    rw [ask, httpRealloc, Lib.Effects.exec_bind_ok Lib.Effects.exec_get]
    exact Lib.Effects.exec_bind_error (ledgerCall_error hc)
  | free p => exact Lib.Effects.exec_bind_error (ledgerCall_error hc)

/-- A request that succeeds was accepted by the ledger: it fails in no other
way. -/
theorem ledger_of_ends {Q : ℕ → Heap → Prop} (h' : Ends (ask A c) h Q) :
    ∃ map, (c.answered (c.answer A h)).ledger h.map = .ok map ∧
      Q (c.answer A h) ⟨map, .call (c.answered (c.answer A h)) :: h.events⟩ := by
  obtain ⟨a, t, hexec, hQ⟩ := h'
  cases hc : (c.answered (c.answer A h)).ledger h.map with
  | error e =>
    rw [ask_error hc] at hexec
    cases hexec
  | ok map =>
    rw [ask_ok hc] at hexec
    cases hexec
    exact ⟨map, rfl, hQ⟩

/-- The allocator with another answer to what is asked after `n` events. -/
def Allocator.override (A : Allocator) (n a : ℕ) : Allocator where
  answer events others size :=
    if events.length = n ∧ Fresh others a then a else A.answer events others size
  fresh events others size := by
    split_ifs with ha
    · exact ha.2
    · exact A.fresh events others size

/-- An answer that may be given is the answer of an allocator that is made to
give it at this point of the history. -/
theorem answer_override (ha : c.MayAnswer (live h.map) a) :
    c.answer (A.override h.events.length a) h = a := by
  cases c with
  | malloc size => exact if_pos ⟨rfl, ha⟩
  | realloc p size => exact if_pos ⟨rfl, ha⟩
  | free p => exact Eq.symm ha

/-- A thread does the same with two allocators that answer the same from now on:
each request makes the history longer, so those answers are all it sees. -/
theorem run_congr {α : Type} {B : Allocator} {n : ℕ} (T : Thread α)
    (hAB : ∀ events others size, n < events.length →
      A.answer events others size = B.answer events others size)
    (hn : n < h.events.length) :
    exec (T.run (ask A)) h = exec (T.run (ask B)) h := by
  induction T generalizing h with
  | done a => rfl
  | call c next ih =>
    have hanswer : c.answer A h = c.answer B h := by
      cases c with
      | malloc size => exact hAB _ _ _ hn
      | realloc p size => exact hAB _ _ _ hn
      | free p => rfl
    rw [Calls.run, Calls.run]
    cases hc : (c.answered (c.answer A h)).ledger h.map with
    | error e =>
      rw [Lib.Effects.exec_bind_error (ask_error hc),
        Lib.Effects.exec_bind_error (ask_error (hanswer ▸ hc))]
    | ok map =>
      rw [Lib.Effects.exec_bind_ok (ask_ok hc), Lib.Effects.exec_bind_ok (ask_ok (hanswer ▸ hc)),
        hanswer]
      exact ih _ (by simp only [List.length_cons]; omega)

/-! ### A request and what is owned -/

/-- `NULL` is no block that anybody owns. -/
theorem Owns.not_null (ho : Owns h L) {n : ℤ} : ((0 : ℕ), n) ∉ L := by
  obtain ⟨l, hl, rfl⟩ := ho
  exact fun h0 => hl.not_null (List.mem_map.2 ⟨_, h0, rfl⟩)

/-- A block that was just given out is one of the blocks. -/
theorem mem_block_add (p : ℕ) (n : ℤ) (M : Blocks) : (p, n) ∈ block p n + M :=
  Multiset.mem_add.2 (.inl (Multiset.mem_singleton_self _))

/-- A block is at no other address, as the addresses of live blocks are
distinct. -/
theorem Owns.fresh {n : ℤ} (ho : Owns h (block a n + M)) : a ≠ 0 ∧ ∀ m, (a, m) ∉ M := by
  obtain ⟨l, hl, rfl⟩ := ho.exists_rest
  refine ⟨?_, fun m hm => ?_⟩
  · rintro rfl
    exact ho.not_null (mem_block_add 0 n _)
  · exact (List.nodup_cons.1 hl.nodup).1 (List.mem_map.2 ⟨_, hm, rfl⟩)

/-- An address is not live if no block is there, whatever its size. -/
theorem fresh_iff {l : List (ℕ × ℤ)} : Fresh l a ↔ a ≠ 0 ∧ ∀ n, (a, n) ∉ (l : Blocks) := by
  rw [Fresh, List.mem_map]
  refine and_congr_right fun _ => ⟨fun hnot n hn => hnot ⟨_, hn, rfl⟩, ?_⟩
  rintro hnot ⟨⟨b, n⟩, hb, rfl⟩
  exact hnot n hb

/-- What a thread gives up is not of the others: its own blocks are taken apart,
and the others are put back beside them. -/
theorem Gives.frame (hg : Gives p L K) (F : Blocks) : Gives p (L + F) (K + F) := by
  rcases hg with ⟨rfl, rfl⟩ | ⟨n, rfl⟩
  · exact .inl ⟨rfl, rfl⟩
  · exact .inr ⟨n, add_assoc _ _ _⟩

/-- The others stay as they are: a new block is beside them, and at none of
their addresses. -/
theorem Gets.of_frame {size : Option ℤ} {L' : Blocks} (hg : Gets size a (K + F) L') :
    ∃ L, Gets size a K L ∧ L' = L + F := by
  cases size with
  | none => exact ⟨K, ⟨hg.1, rfl⟩, hg.2⟩
  | some size =>
    obtain ⟨⟨h0, hnot⟩, rfl⟩ := hg
    exact ⟨block a size + K, ⟨⟨h0, fun n hn => hnot n (Multiset.mem_add.2 (.inl hn))⟩, rfl⟩,
      (add_assoc _ _ _).symm⟩

/-- The live blocks without the one that is given up are the blocks without it.
The addresses are distinct, so there is one entry to take out. -/
theorem Owns.erase_live (ho : Owns h L) (hg : Gives p L K) :
    (Lib.Assoc.erase p (live h.map) : Blocks) = K := by
  rcases hg with ⟨rfl, rfl⟩ | ⟨n, rfl⟩
  · rw [Lib.Assoc.erase_of_not_mem, ho.live_eq]
    intro h0
    obtain ⟨⟨q, n⟩, hq, rfl⟩ := List.mem_map.1 h0
    exact ho.not_null (ho.mem_iff.1 hq)
  · obtain ⟨l, hl, rfl⟩ := ho.exists_rest
    exact Multiset.coe_eq_coe.2 (Lib.Assoc.perm_erase hl.perm hl.nodup)

/-- `NULL` has no block, so giving it up gives up nothing. -/
theorem Gives.of_null (hg : Gives 0 L K) (ho : Owns h L) : K = L := by
  rcases hg with ⟨-, hK⟩ | ⟨n, rfl⟩
  · exact hK
  · exact absurd (mem_block_add 0 n K) ho.not_null

/-- The answers that a thread may get, from the blocks of all of them: an
address is fresh if it is at no block of any thread. -/
theorem Owns.mayAnswer (ho : Owns h L) (hg : Gives c.freed L K) {L' : Blocks}
    (hget : Gets c.size a K L') : c.MayAnswer (live h.map) a := by
  have herase := ho.erase_live hg
  cases c with
  | malloc size =>
    refine fresh_iff.2 ?_
    rw [ho.live_eq, ← Gives.of_null hg ho]
    exact hget.1
  | realloc p size =>
    refine fresh_iff.2 ?_
    rw [show (Lib.Assoc.erase p (live h.map) : Blocks) = K from herase]
    exact hget.1
  | free p => exact hget.1

/-- `http_realloc` of `NULL` adds a block, as `realloc` does then what `malloc`
does. -/
theorem httpRealloc_null_ends (A : Allocator) (ho : Owns h L) (hroom : L.card < MEMORY_LEN)
    (size : ℤ) : Ends (ask A (.realloc 0 size)) h fun a t => Owns t (block a size + L) := by
  obtain ⟨map, hmap, hholds⟩ := ledger_of_ends (A := A) (c := .malloc size)
    (httpMalloc_ends ho hroom size)
  have hfresh := A.fresh h.events (live h.map) size
  have hfree : (live h.map).length < h.map.length := by
    obtain ⟨l, hl, rfl⟩ := ho
    rw [hl.perm.length_eq, hl.length]
    exact hroom
  have hanswer : (Request.realloc 0 size).answer A h = (Request.malloc size).answer A h :=
    congrArg (fun l => A.answer h.events l size) (Lib.Assoc.erase_of_not_mem fun h0 => by
      obtain ⟨⟨q, n⟩, hq, rfl⟩ := List.mem_map.1 h0
      exact ho.not_null (ho.mem_iff.1 hq))
  have hcall : ((Request.realloc 0 size).answered
      ((Request.realloc 0 size).answer A h)).ledger h.map = .ok map := by
    rw [hanswer]
    exact (httpRealloc_null hfree size hfresh.1).trans hmap
  refine Lib.Effects.ends_of_exec (ask_ok hcall) ?_
  rw [hanswer]
  exact hholds

/-- **A request that is about owned blocks succeeds** if there is a free entry,
or none is needed. -/
theorem ask_ends (A : Allocator) (ho : Owns h L) (hg : Gives c.freed L K)
    (hroom : c.NeedsEntry → L.card < MEMORY_LEN) :
    Ends (ask A c) h fun a t => ∃ L', Gets c.size a K L' ∧ Owns t L' := by
  cases c with
  | malloc size =>
    obtain rfl := Gives.of_null hg ho
    exact (httpMalloc_ends ho (hroom ⟨rfl, rfl⟩) size).mono fun a t ht => ⟨_, ⟨ht.fresh, rfl⟩, ht⟩
  | realloc p size =>
    rcases hg with ⟨hp, rfl⟩ | ⟨n, rfl⟩
    · obtain rfl : p = 0 := hp
      exact (httpRealloc_null_ends A ho (hroom ⟨rfl, rfl⟩) size).mono fun a t ht =>
        ⟨_, ⟨ht.fresh, rfl⟩, ht⟩
    · exact (httpRealloc_ends ho size).mono fun a t ht => ⟨_, ⟨ht.fresh, rfl⟩, ht⟩
  | free p =>
    rcases hg with ⟨hp, rfl⟩ | ⟨n, rfl⟩
    · obtain rfl : p = 0 := hp
      have hnull : httpFree_ h.map 0 = .ok h.map := if_pos rfl
      exact Lib.Effects.ends_of_exec (ask_ok hnull) ⟨K, ⟨rfl, rfl⟩, ho⟩
    · exact (httpFree_ends ho).seq fun _ t ht => Lib.Effects.ends_pure ⟨K, ⟨rfl, rfl⟩, ht⟩

/-- The ledger finds only what is live: an entry with the address, and not
`NULL`. -/
theorem mem_live_of_findEntry {i : ℕ} (hi : findEntry map p = some i) (hp : p ≠ 0) :
    ∃ n, (p, n) ∈ live map := by
  rcases findEntry_cases map p with ⟨hnone, -⟩ | ⟨before, e, after, rfl, he, -⟩
  · rw [hnone] at hi
    cases hi
  · refine ⟨e.size, ?_⟩
    rw [live_append, live_cons (he ▸ hp), he]
    exact List.mem_append_right _ (List.mem_cons_self ..)

/-- What the ledger accepts is about owned blocks: it looks up what is freed or
reallocated, and the process is ended if it is not there. -/
theorem Owns.gives (ho : Owns h L) (hc : (c.answered a).ledger h.map = .ok map) :
    ∃ K, Gives c.freed L K := by
  have hfound : ∀ i, findEntry h.map c.freed = some i → ∃ K, Gives c.freed L K := by
    intro i hi
    by_cases hp : c.freed = 0
    · exact ⟨L, .inl ⟨hp, rfl⟩⟩
    · obtain ⟨n, hn⟩ := mem_live_of_findEntry hi hp
      obtain ⟨K, rfl⟩ := Multiset.exists_cons_of_mem (ho.mem_iff.1 hn)
      exact ⟨K, .inr ⟨n, (Multiset.singleton_add _ _).symm⟩⟩
  cases c with
  | malloc size => exact ⟨L, .inl ⟨rfl, rfl⟩⟩
  | realloc p size =>
    cases hi : findEntry h.map p with
    | none => simp [Request.answered, Call.ledger, httpRealloc_, hi] at hc
    | some i => exact hfound i hi
  | free p =>
    by_cases hp : p = 0
    · exact ⟨L, .inl ⟨hp, rfl⟩⟩
    · cases hi : findEntry h.map p with
      | none => simp [Request.answered, Call.ledger, httpFree_, hp, hi] at hc
      | some i => exact hfound i hi

/-- There are not more live blocks than entries. -/
theorem length_live_le (map : MemoryMap) : (live map).length ≤ map.length := by
  rw [live, List.length_map]
  exact List.length_filter_le _ _

/-- With a free entry there are fewer.  So a malloc that finds one does not end
the process. -/
theorem length_live_lt {i : ℕ} (hi : findEntry map 0 = some i) :
    (live map).length < map.length := by
  rcases findEntry_cases map 0 with ⟨hnone, -⟩ | ⟨before, e, after, rfl, he, -⟩
  · rw [hnone] at hi
    cases hi
  · have hbefore := length_live_le before
    have hafter := length_live_le after
    rw [live_append, live_cons_null he, List.length_append, List.length_append, List.length_cons]
    omega

/-- The ledger has always the same number of entries. -/
theorem Owns.length_map (ho : Owns h L) : h.map.length = MEMORY_LEN := by
  obtain ⟨l, hl, -⟩ := ho
  exact hl.length

/-- All live blocks are owned by somebody. -/
theorem Owns.length_live (ho : Owns h L) : (live h.map).length = L.card := by
  rw [← ho.live_eq]
  rfl

/-- The ledger accepts what needs an entry if it has one, so after it had one
the blocks are fewer than its entries. -/
theorem Owns.room (ho : Owns h L) (hc : (c.answered a).ledger h.map = .ok map)
    (hneeds : c.NeedsEntry) : L.card < MEMORY_LEN := by
  rw [← ho.length_live, ← ho.length_map]
  obtain ⟨hnull, hsize⟩ := hneeds
  cases hi : findEntry h.map 0 with
  | some i => exact length_live_lt hi
  | none =>
    cases c with
    | malloc size => simp [Request.answered, Call.ledger, httpMalloc_, hi] at hc
    | realloc p size =>
      obtain rfl : p = 0 := hnull
      simp [Request.answered, Call.ledger, httpRealloc_, hi] at hc
    | free p => exact absurd hsize (by simp [Request.size])

/-- **The ledger accepts a request about owned blocks** if there is a free
entry, or none is needed. -/
theorem Owns.accepts (ho : Owns h L) (hg : Gives c.freed L K) (ha : c.MayAnswer (live h.map) a)
    (hroom : c.NeedsEntry → L.card < MEMORY_LEN) :
    ∃ map, (c.answered a).ledger h.map = .ok map ∧
      ∃ L', Gets c.size a K L' ∧ ∀ events, Owns ⟨map, events⟩ L' := by
  obtain ⟨map, hmap, L', hget, hown⟩ :=
    ledger_of_ends (ask_ends (neverReused.override h.events.length a) ho hg hroom)
  rw [answer_override ha] at hmap hget
  exact ⟨map, hmap, L', hget, fun _ => hown⟩

/-- The blocks behind an answer are determined by those before it. -/
theorem Gets.eq {size : Option ℤ} {L L' : Blocks} (hg : Gets size a K L) (hg' : Gets size a K L') :
    L = L' := by
  cases size with
  | none => exact hg.2.trans hg'.2.symm
  | some size => exact hg.2.trans hg'.2.symm

/-! ### A thread alone and among others -/

/-- **A program that ends well alone keeps to its own blocks**, whatever it is
answered.  For each answer there is an allocator that gives it, so its run alone
shows what it asks for next, by induction on the tree of its calls. -/
theorem safe_of_ends {α : Type} {Post : α → Blocks → Prop} (T : Thread α) (ho : Owns h L)
    (hT : ∀ A, Ends (T.run (ask A)) h fun a t => ∃ M, Owns t M ∧ Post a M) :
    Safe ownBlocks Post T L := by
  induction T generalizing h L with
  | done a =>
    obtain ⟨b, t, hexec, M, hM, hpost⟩ := hT neverReused
    obtain ⟨rfl, rfl⟩ : a = b ∧ h = t := by
      cases hexec
      exact ⟨rfl, rfl⟩
    rw [← ho.live_eq, hM.live_eq]
    exact hpost
  | call c next ih =>
    have hfirst : ∀ A, ∃ map, (c.answered (c.answer A h)).ledger h.map = .ok map ∧
        Ends ((next (c.answer A h)).run (ask A))
          ⟨map, .call (c.answered (c.answer A h)) :: h.events⟩
          fun a t => ∃ M, Owns t M ∧ Post a M :=
      fun A => ledger_of_ends (Ends.of_bind (hT A))
    refine ⟨?_, ?_⟩
    · obtain ⟨map, hmap, -⟩ := hfirst neverReused
      exact ho.gives hmap
    · rintro r L' ⟨K, hgive, hget⟩
      have hr := ho.mayAnswer hgive hget
      have hanswer : ∀ A : Allocator, c.answer (A.override h.events.length r) h = r :=
        fun _ => answer_override hr
      obtain ⟨map, hmap, -⟩ := hfirst (neverReused.override h.events.length r)
      rw [hanswer] at hmap
      obtain ⟨map', hmap', L'', hget', howns⟩ := ho.accepts hgive hr (ho.room hmap)
      obtain rfl : map = map' := Except.ok.inj (hmap.symm.trans hmap')
      obtain rfl := hget.eq hget'
      refine ih r (howns (.call (c.answered r) :: h.events)) fun A => ?_
      obtain ⟨map', hmap', hrest⟩ := hfirst (A.override h.events.length r)
      rw [hanswer] at hmap' hrest
      obtain rfl : map = map' := Except.ok.inj (hmap.symm.trans hmap')
      -- behind the call the two allocators answer the same
      rw [Ends, run_congr (B := A) (n := h.events.length)] at hrest
      · exact hrest
      · intro events others size hlong
        exact if_neg fun hsame => hlong.ne' hsame.1
      · simp

/-- What the process has in its ledger. -/
def Process.Owns (s : Process) (L : Blocks) : Prop := s.exit = none ∧ Sys.Owns ⟨s.map, []⟩ L

/-- **A call is about the blocks of the thread that makes it**, and it ends the
process only if every entry is taken. -/
theorem process_local : Local process ownBlocks Process.Owns Process.Full where
  step s c a L F hs hmay henabled := by
    obtain ⟨K, hg⟩ := hmay
    have ho := hs.2
    by_cases hroom : c.NeedsEntry → (L + F).card < MEMORY_LEN
    · obtain ⟨map, hmap, L', hget, howns⟩ := ho.accepts (hg.frame F) henabled.2 hroom
      obtain ⟨L₁, hown, rfl⟩ := hget.of_frame
      refine .inr ⟨L₁, ⟨K, hg, hown⟩, ?_⟩
      have hnext : process.next s (c, a) = ⟨map, none⟩ := by
        simp only [process]
        rw [hmap]
      rw [hnext]
      exact ⟨rfl, howns []⟩
    · obtain ⟨hneeds, hfull⟩ := Classical.not_imp.1 hroom
      cases hc : (c.answered a).ledger s.map with
      | ok map => exact absurd (ho.room hc hneeds) hfull
      | error e =>
        have hnext : process.next s (c, a) = ⟨s.map, some e⟩ := by
          simp only [process]
          rw [hc]
        rw [hnext]
        refine .inl ⟨Option.some_ne_none e, ?_⟩
        have hle := length_live_le s.map
        rw [ho.length_map] at hle
        exact le_antisymm hle (ho.length_live ▸ not_lt.1 hfull)
  stopped s l hs hl := hs.1 hl.1

/-- There is always an address that is not live: the blocks are finitely many. -/
theorem exists_mayAnswer (c : Request) (blocks : List (ℕ × ℤ)) : ∃ a, c.MayAnswer blocks a := by
  cases c with
  | malloc size => exact ⟨_, neverReused.fresh [] blocks size⟩
  | realloc p size => exact ⟨_, neverReused.fresh [] (Lib.Assoc.erase p blocks) size⟩
  | free p => exact ⟨0, rfl⟩

/-! ### Programs that only make calls -/

/-- The program sees the ledger and the allocator in its calls only. -/
class ByCalls {α : Type} (x : Allocator → Alloc α) : Prop where
  exists_thread : ∃ T : Thread α, ∀ A, T.run (ask A) = x A

/-- `T` is the program as a thread. -/
def IsThread {α : Type} (T : Thread α) (x : Allocator → Alloc α) : Prop :=
  ∀ A, T.run (ask A) = x A

section ByCalls

variable {α β γ : Type}

instance byCalls_pure (a : α) : ByCalls fun _ => (pure a : Alloc α) := ⟨.done a, fun _ => rfl⟩

instance byCalls_malloc (size : ℤ) : ByCalls fun A => httpMalloc A size :=
  ⟨.call (.malloc size) .done, fun _ => bind_pure _⟩

instance byCalls_realloc (p : ℕ) (size : ℤ) : ByCalls fun A => httpRealloc A p size :=
  ⟨.call (.realloc p size) .done, fun _ => bind_pure _⟩

instance byCalls_free (p : ℕ) : ByCalls fun _ => httpFree p :=
  ⟨.call (.free p) fun _ => .done ⟨⟩, fun _ => by
    simp only [Calls.run, ask, bind_assoc, pure_bind]
    exact bind_pure _⟩

/-- A part, and then the rest: the tree of the rest is hung below every leaf.
Addresses go from the one to the other as the result of the part. -/
theorem ByCalls.seq {x : Allocator → Alloc α} {f : Allocator → α → Alloc β} (hx : ByCalls x)
    (hf : ∀ a, ByCalls fun A => f A a) : ByCalls fun A => x A >>= f A := by
  obtain ⟨T, hT⟩ := hx
  choose next hnext using fun a => (hf a).exists_thread
  refine ⟨T.bind next, fun A => ?_⟩
  rw [Calls.run_bind, hT]
  exact congrArg _ (funext fun a => hnext a A)

instance byCalls_bind (x : Allocator → Alloc α) (f : Allocator → α → Alloc β) [hx : ByCalls x]
    [hf : ∀ a, ByCalls fun A => f A a] : ByCalls fun A => x A >>= f A := hx.seq hf

instance byCalls_ite (c : Prop) [Decidable c] (x y : Allocator → Alloc α) [ByCalls x] [ByCalls y] :
    ByCalls fun A => if c then x A else y A := by
  by_cases h : c
  · simpa only [if_pos h]
  · simpa only [if_neg h]

instance byCalls_foldlM (f : Allocator → β → γ → Alloc β) [∀ b c, ByCalls fun A => f A b c]
    (b : β) (l : List γ) : ByCalls fun A => l.foldlM (f A) b := by
  induction l generalizing b with
  | nil => exact byCalls_pure b
  | cons c l ih =>
    simp only [List.foldlM_cons]
    infer_instance

end ByCalls

/-- What threads that are started together own in every interleaving: the
process has been ended by a full ledger, or each thread has blocks of its own,
which are all there are, and what `Post` says if it has ended. -/
theorem threads_run {ι : Type} [Fintype ι] [DecidableEq ι] {α : ι → Type}
    {x : ∀ i, Allocator → Alloc (α i)} {Post : ∀ i, α i → Blocks → Prop} {T : ∀ i, Thread (α i)}
    (hT : ∀ i, IsThread (T i) (x i))
    (hx : ∀ i A, Ends (x i A) .init fun a t => ∃ M, Owns t M ∧ Post i a M)
    {tr : List (ι × ℕ)} {s : Pool ι Request ℕ Process α}
    (hrun : (interleaved process).Run ⟨T, ⟨httpInit, none⟩⟩ tr s) :
    s.shared.Full ∨ Shared ownBlocks Process.Owns Post s := by
  refine Lib.interleaved_run process_local ⟨fun _ => 0, ⟨rfl, ?_⟩, fun i => ?_⟩ hrun
  · rw [Finset.sum_const_zero]
    exact owns_init
  · refine safe_of_ends (T i) owns_init fun A => ?_
    rw [hT i A]
    exact hx i A

end Sys
end Dukserver
