/-
# The callbacks of the worker

`libhttpd/wsgi_server.c`, `_wsgi_initialize` and `_wsgi_finalize` (lines 260-303),
`wsgi_add_initialize_chain` and `wsgi_add_finalize_chain` (lines 394-428), as
`_worker_fastcgi` of `libhttpd/http_mpm.c` calls them.

The chains are arrays that grow by one cell for each registration.  The worker calls
the first one from its start and the second one backwards from its end, around at
most `HTTP_MPM_MAX_REQUESTS` requests, and makes a script heap before and destroys
it behind.  So what is called is a sequence of rounds (`callbacks_rounds`), whatever
the other threads do.  A heap can be made whenever it is asked for.
-/

import Dukserver.Http.Common
import Dukserver.Mpm.Threads

namespace Dukserver
namespace Wsgi

open Http (Fault)
open Mpm (HTTP_MPM_MAX_REQUESTS Label FastcgiPc FastcgiStep)

/-- `wsgi_handle_t`; `κ` is a callback with its parameter, and a cell is `none`
until it is written.  Script heaps are numbered in the order in which they are
made. -/
structure WsgiHandle (κ : Type) where
  nrInit : ℕ
  initChain : List (Option κ)
  nrFini : ℕ
  finiChain : List (Option κ)
  ctx : Option ℕ
  heaps : ℕ

/-- What the worker calls. -/
inductive Event (κ : Type)
  | createHeap (heap : ℕ)
  | init (c : κ) (ctx : Option ℕ)
  | process (ctx : Option ℕ) (req : Option ℕ)
  | fini (c : κ) (ctx : Option ℕ)
  | destroyHeap (heap : ℕ)
  deriving DecidableEq, Repr

/-- A call of `wsgi_add_initialize_chain` or `wsgi_add_finalize_chain`. -/
inductive Registration (κ : Type)
  | init (c : κ)
  | fini (c : κ)
  deriving DecidableEq, Repr

variable {κ ι ρ : Type}

/-- `wsgi_create`. -/
def wsgiCreate : WsgiHandle κ := ⟨0, [], 0, [], none, 0⟩

/-- An array after `http_realloc` to `n` cells. -/
def reallocChain (chain : List (Option κ)) (n : ℕ) : List (Option κ) :=
  chain.take n ++ .replicate (n - chain.length) none

/-- What `wsgi_add_initialize_chain` and `wsgi_add_finalize_chain` do to their
chain. -/
def addChain (nr : ℕ) (chain : List (Option κ)) (c : κ) : List (Option κ) :=
  if nr = 0 then (reallocChain [] 1).set 0 (some c)
  else (reallocChain chain (nr + 1)).set nr (some c)

/-- `wsgi_add_initialize_chain`. -/
def wsgiAddInitializeChain (h : WsgiHandle κ) (c : κ) : WsgiHandle κ :=
  { h with initChain := addChain h.nrInit h.initChain c, nrInit := h.nrInit + 1 }

/-- `wsgi_add_finalize_chain`. -/
def wsgiAddFinalizeChain (h : WsgiHandle κ) (c : κ) : WsgiHandle κ :=
  { h with finiChain := addChain h.nrFini h.finiChain c, nrFini := h.nrFini + 1 }

/-- The handle after some registrations. -/
def register (adds : List (Registration κ)) : WsgiHandle κ :=
  adds.foldl (fun h add => match add with
    | .init c => wsgiAddInitializeChain h c
    | .fini c => wsgiAddFinalizeChain h c) wsgiCreate

/-- The cell that `p` points to. -/
def readChain (chain : List (Option κ)) (p : ℤ) : Except Fault κ :=
  if p < 0 then .error .outOfBounds
  else match chain[p.toNat]? with
    | none => .error .outOfBounds
    | some none => .error .uninitialised
    | some (some c) => .ok c

/-- The callbacks in `n` cells from `p` on, where each step adds `d` to `p`. -/
def walkChain (chain : List (Option κ)) (d : ℤ) : ℕ → ℤ → Except Fault (List κ)
  | 0, _ => .ok []
  | n + 1, p => do
    let c ← readChain chain p
    let cs ← walkChain chain d n (p + d)
    .ok (c :: cs)

/-- `_wsgi_initialize`. -/
def wsgiInitialize (h : WsgiHandle κ) : Except Fault (List (Event κ) × WsgiHandle κ) := do
  let ctx := some h.heaps
  let cs ← walkChain h.initChain 1 h.nrInit 0
  .ok (.createHeap h.heaps :: cs.map (.init · ctx), { h with ctx := ctx, heaps := h.heaps + 1 })

/-- `_wsgi_finalize`. -/
def wsgiFinalize (h : WsgiHandle κ) : Except Fault (List (Event κ) × WsgiHandle κ) := do
  let cs ← walkChain h.finiChain (-1) h.nrFini (h.nrFini - 1)
  .ok (cs.map (.fini · h.ctx) ++ h.ctx.toList.map .destroyHeap, h)

/-- The callbacks of the worker in one step of the server: `_wsgi_process` uses
the heap that `ctx` refers to. -/
def callback (h : WsgiHandle κ) : Label ι ρ → Except Fault (List (Event κ) × WsgiHandle κ)
  | .initializeCb => wsgiInitialize h
  | .call r => .ok ([.process h.ctx r], h)
  | .finializeCb => wsgiFinalize h
  | _ => .ok ([], h)

/-- One more step of the server. -/
def callbackStep (s : List (Event κ) × WsgiHandle κ) (l : Label ι ρ) :
    Except Fault (List (Event κ) × WsgiHandle κ) := do
  let r ← callback s.2 l
  .ok (s.1 ++ r.1, r.2)

/-- The callbacks in a run of the server. -/
def callbacks (h : WsgiHandle κ) (tr : List (Label ι ρ)) :
    Except Fault (List (Event κ) × WsgiHandle κ) :=
  tr.foldlM callbackStep ([], h)

/-! ### What was registered -/

/-- The callbacks of the first chain, in the order of their registration. -/
def inits (adds : List (Registration κ)) : List κ :=
  adds.filterMap fun add => match add with
    | .init c => some c
    | .fini _ => none

/-- The callbacks of the second chain. -/
def finis (adds : List (Registration κ)) : List κ :=
  adds.filterMap fun add => match add with
    | .init _ => none
    | .fini c => some c

section Chain

variable {cs : List κ} {n : ℕ}

/-- A registration appends to its chain.  The block grows by one cell, and the
cells before it are kept. -/
theorem addChain_eq (cs : List κ) (c : κ) :
    addChain cs.length (cs.map some) c = (cs ++ [c]).map some := by
  rw [addChain]
  split_ifs with h
  · rw [List.length_eq_zero_iff.1 h]
    rfl
  · have hcells : reallocChain (cs.map some) (cs.length + 1) = cs.map some ++ [none] := by
      rw [reallocChain, List.take_of_length_le (by simp), List.length_map, Nat.add_sub_cancel_left]
      rfl
    rw [hcells, List.set_append_right _ _ (by simp)]
    simp

/-- **The chains hold what was registered, in order.** -/
theorem register_eq (adds : List (Registration κ)) :
    register adds = ⟨(inits adds).length, (inits adds).map some, (finis adds).length,
      (finis adds).map some, none, 0⟩ := by
  induction adds using List.reverseRecOn with
  | nil => rfl
  | append_singleton adds add ih =>
    rw [register, List.foldl_append, ← register, ih, List.foldl_cons, List.foldl_nil]
    cases add with
    | init c =>
      simp [wsgiAddInitializeChain, addChain_eq, inits, finis]
    | fini c =>
      simp [wsgiAddFinalizeChain, addChain_eq, inits, finis]

/-- A cell of a chain is read. -/
theorem readChain_of_lt {i : ℕ} (hi : i < cs.length) :
    readChain (cs.map some) i = .ok cs[i] := by
  rw [readChain, if_neg (by omega), Int.toNat_natCast]
  simp [hi]

/-- The walk forward.  It is within the chain as long as the start and the
number of steps are. -/
theorem walkChain_forward {i : ℕ} (h : i + n = cs.length) :
    walkChain (cs.map some) 1 n i = .ok (cs.drop i) := by
  induction n generalizing i with
  | zero =>
    rw [List.drop_eq_nil_of_le (by omega)]
    rfl
  | succ n ih =>
    have hi : i < cs.length := by omega
    have hnext := ih (i := i + 1) (by omega)
    push_cast at hnext
    rw [walkChain, readChain_of_lt hi, hnext, List.drop_eq_getElem_cons hi]
    rfl

/-- The walk backward, from the last cell to the first.  With no cell at all it
starts before the block, and reads nothing. -/
theorem walkChain_backward (h : n ≤ cs.length) :
    walkChain (cs.map some) (-1) n (n - 1) = .ok (cs.take n).reverse := by
  induction n with
  | zero => rfl
  | succ n ih =>
    have hn : n < cs.length := by omega
    have hread := readChain_of_lt hn
    have hpos : ((n + 1 : ℕ) : ℤ) - 1 = n := by omega
    rw [walkChain, hpos, hread, ← sub_eq_add_neg, ih (by omega),
      List.take_succ_eq_append_getElem hn, List.reverse_append]
    rfl

end Chain

/-! ### Rounds -/

variable {adds : List (Registration κ)} {events : List (Event κ)} {h : WsgiHandle κ}

/-- The beginning of the round on heap `k`: it is made and initialised, and
requests are processed. -/
def opening (adds : List (Registration κ)) (k : ℕ) (requests : List (Option ℕ)) :
    List (Event κ) :=
  (.createHeap k :: (inits adds).map (.init · (some k))) ++ requests.map (.process (some k))

/-- Its end. -/
def closing (adds : List (Registration κ)) (k : ℕ) : List (Event κ) :=
  (finis adds).reverse.map (.fini · (some k)) ++ [.destroyHeap k]

/-- Complete rounds, each given by its requests. -/
def rounds (adds : List (Registration κ)) (done : List (List (Option ℕ))) : List (Event κ) :=
  done.zipIdx.flatMap fun r => opening adds r.2 r.1 ++ closing adds r.2

/-- The last round comes behind the others. -/
theorem rounds_concat (adds : List (Registration κ)) (done : List (List (Option ℕ)))
    (requests : List (Option ℕ)) : rounds adds (done ++ [requests]) =
      rounds adds done ++ (opening adds done.length requests ++ closing adds done.length) := by
  simp [rounds, List.zipIdx_append]

/-- The handle of the worker: only the heap changes. -/
def handleAt (adds : List (Registration κ)) (ctx : Option ℕ) (heaps : ℕ) : WsgiHandle κ :=
  { register adds with ctx := ctx, heaps := heaps }

/-- Initialising makes the next heap and calls the first chain in order. -/
theorem wsgiInitialize_eq (adds : List (Registration κ)) (ctx : Option ℕ) (k : ℕ) :
    wsgiInitialize (handleAt adds ctx k) =
      .ok (opening adds k [], handleAt adds (some k) (k + 1)) := by
  have hwalk : walkChain ((inits adds).map some) 1 (inits adds).length 0 = .ok (inits adds) :=
    walkChain_forward (i := 0) (by omega)
  rw [handleAt, register_eq, wsgiInitialize]
  simp only [hwalk]
  rw [opening, List.map_nil, List.append_nil, handleAt, register_eq]
  rfl

/-- Finalising calls the second chain backwards and destroys the heap. -/
theorem wsgiFinalize_eq (adds : List (Registration κ)) (k heaps : ℕ) :
    wsgiFinalize (handleAt adds (some k) heaps) =
      .ok (closing adds k, handleAt adds (some k) heaps) := by
  have hwalk : walkChain ((finis adds).map some) (-1) (finis adds).length
      ((finis adds).length - 1) = .ok (finis adds).reverse := by
    rw [walkChain_backward le_rfl, List.take_length]
  rw [handleAt, register_eq, wsgiFinalize]
  simp only [hwalk]
  rfl

/-- How many requests the round has had at most, at a point inside a round; `n`
is `nr_request`. -/
def called : FastcgiPc × ℕ → Option ℕ
  | (.poll, n) | (.waitFire, n) | (.readReq, n) | (.call, n) => some n
  | (.process, n) | (.writeRes, n) | (.setDone, n) => some (n + 1)
  | (.finializeCb, _) => some HTTP_MPM_MAX_REQUESTS
  | _ => none

/-- The loop condition, from where it was tested to the end of the pass. -/
def Counted : FastcgiPc × ℕ → Prop
  | (.poll, n) => n ≤ HTTP_MPM_MAX_REQUESTS
  | (.waitFire, n) | (.readReq, n) | (.call, n) | (.process, n) | (.writeRes, n) | (.setDone, n) =>
    n < HTTP_MPM_MAX_REQUESTS
  | _ => True

/-- The rounds that the worker has been through, and the one that it is in. -/
structure Stage (adds : List (Registration κ)) (pc : FastcgiPc × ℕ)
    (done : List (List (Option ℕ))) (cur : Option (List (Option ℕ))) (events : List (Event κ))
    (h : WsgiHandle κ) : Prop where
  events_eq : events = rounds adds done ++ (cur.map (opening adds done.length)).getD []
  handle_eq : ∃ ctx, h = handleAt adds ctx (done.length + cur.toList.length)
  ctx_eq : ∀ requests, cur = some requests → h.ctx = some done.length
  done_le : ∀ requests ∈ done, requests.length ≤ HTTP_MPM_MAX_REQUESTS
  counted : Counted pc
  between : called pc = none ↔ cur = none
  cur_le : ∀ requests, cur = some requests → ∀ m, called pc = some m → requests.length ≤ m

section Run

variable {pc pc' : FastcgiPc × ℕ} {l : Label ι ρ} {done : List (List (Option ℕ))}
  {cur : Option (List (Option ℕ))}

/-- Most steps call nothing.  Only those of the worker that initialise, process
or finalise do. -/
theorem callbackStep_silent (hl : callback h l = .ok ([], h)) :
    callbackStep (events, h) l = .ok (events, h) := by
  have hstep : callbackStep (events, h) l = .ok (events ++ [], h) := by
    rw [callbackStep]
    simp only [hl]
    rfl
  rwa [List.append_nil] at hstep

/-- Such a step stays in its round, if it is in one: it calls nothing, and the
number of requests that the worker counts does not get smaller. -/
theorem Stage.silent (hs : Stage adds pc done cur events h) (hcounted : Counted pc')
    (hcalled : called pc = none ∧ called pc' = none ∨
      ∃ m m', called pc = some m ∧ called pc' = some m' ∧ m ≤ m') :
    Stage adds pc' done cur events h where
  events_eq := hs.events_eq
  handle_eq := hs.handle_eq
  ctx_eq := hs.ctx_eq
  done_le := hs.done_le
  counted := hcounted
  between := by
    rw [← hs.between]
    rcases hcalled with ⟨hnone, hnone'⟩ | ⟨m, m', hm, hm', -⟩
    · exact iff_of_true hnone' hnone
    · exact iff_of_false (by rw [hm']; exact Option.some_ne_none _)
        (by rw [hm]; exact Option.some_ne_none _)
  cur_le := by
    intro requests hcur k hk
    rcases hcalled with ⟨-, hnone'⟩ | ⟨m, m', hm, hm', hle⟩
    · rw [hnone'] at hk
      cases hk
    · obtain rfl := Option.some.inj (hm'.symm.trans hk)
      exact (hs.cur_le requests hcur m hm).trans hle

/-- The worker initialises: the next round is open, on a heap with the next
number, and has no requests yet. -/
theorem Stage.initialize {n : ℕ} (hs : Stage adds (.initializeCb, n) done cur events h) :
    ∃ out, callbackStep (events, h) (.initializeCb : Label ι ρ) = .ok out ∧
      Stage adds (.poll, 0) done (some []) out.1 out.2 := by
  obtain rfl := hs.between.1 rfl
  obtain ⟨ctx, rfl⟩ := hs.handle_eq
  have hcall : callback (handleAt adds ctx (done.length + 0)) (.initializeCb : Label ι ρ) =
      .ok (opening adds done.length [], handleAt adds (some done.length) (done.length + 1)) :=
    wsgiInitialize_eq adds ctx done.length
  refine ⟨(events ++ opening adds done.length [],
    handleAt adds (some done.length) (done.length + 1)), ?_, ?_⟩
  · rw [callbackStep]
    show (callback (handleAt adds ctx (done.length + 0)) _ >>= _) = _
    rw [hcall]
    rfl
  · constructor
    · rw [hs.events_eq]
      simp
    · exact ⟨_, rfl⟩
    · exact fun _ _ => rfl
    · exact hs.done_le
    · exact Nat.zero_le _
    · exact iff_of_false (Option.some_ne_none _) (Option.some_ne_none _)
    · intro requests hcur m _
      rw [← Option.some.inj hcur]
      exact Nat.zero_le _

/-- It processes a request on the heap of its round, which is the context that
was made last. -/
theorem Stage.call {n : ℕ} (hs : Stage adds (.call, n) done cur events h) (r : Option ℕ) :
    ∃ out cur', callbackStep (events, h) (.call r : Label ι ρ) = .ok out ∧
      Stage adds (.process, n) done cur' out.1 out.2 := by
  obtain ⟨requests, rfl⟩ := Option.ne_none_iff_exists'.1 (mt hs.between.2 (Option.some_ne_none n))
  refine ⟨(events ++ [.process h.ctx r], h), some (requests ++ [r]), rfl, ?_⟩
  have hctx := hs.ctx_eq requests rfl
  constructor
  · rw [hs.events_eq, hctx]
    simp [opening]
  · exact hs.handle_eq
  · exact fun _ _ => hctx
  · exact hs.done_le
  · exact hs.counted
  · exact iff_of_false (Option.some_ne_none _) (Option.some_ne_none _)
  · intro requests' hcur m hm
    obtain rfl := Option.some.inj hcur
    obtain rfl := Option.some.inj hm
    have hle := hs.cur_le requests rfl n rfl
    rw [List.length_append]
    exact Nat.succ_le_succ hle

/-- It finalises: the round is complete.  The worker has counted no more
requests than `HTTP_MPM_MAX_REQUESTS`, so the round has no more. -/
theorem Stage.finialize {n : ℕ} (hs : Stage adds (.finializeCb, n) done cur events h) :
    ∃ out done', callbackStep (events, h) (.finializeCb : Label ι ρ) = .ok out ∧
      Stage adds (.loop, n) done' none out.1 out.2 := by
  obtain ⟨requests, rfl⟩ := Option.ne_none_iff_exists'.1
    (mt hs.between.2 (Option.some_ne_none HTTP_MPM_MAX_REQUESTS))
  obtain ⟨ctx, rfl⟩ := hs.handle_eq
  obtain rfl : ctx = some done.length := hs.ctx_eq requests rfl
  refine ⟨(events ++ closing adds done.length, handleAt adds (some done.length) (done.length + 1)),
    done ++ [requests], ?_, ?_⟩
  · rw [callbackStep]
    show (wsgiFinalize (handleAt adds (some done.length) (done.length + 1)) >>= _) = _
    rw [wsgiFinalize_eq]
    rfl
  · constructor
    · rw [hs.events_eq, rounds_concat]
      simp
    · exact ⟨some done.length, by simp⟩
    · intro requests' hcur
      cases hcur
    · intro requests' hmem
      rcases List.mem_append.1 hmem with hmem | hmem
      · exact hs.done_le requests' hmem
      · rw [List.mem_singleton.1 hmem]
        exact hs.cur_le requests rfl _ rfl
    · trivial
    · exact iff_of_true rfl rfl
    · intro requests' hcur
      cases hcur

/-- **A step of the worker stays in a round, opens one or completes one**, by
where it stands in its two loops. -/
theorem step_stage (hl : FastcgiStep l pc pc') (hs : Stage adds pc done cur events h) :
    ∃ out done' cur', callbackStep (events, h) l = .ok out ∧
      Stage adds pc' done' cur' out.1 out.2 := by
  have hsilent : callback h l = .ok ([], h) → Stage adds pc' done cur events h →
      ∃ out done' cur', callbackStep (events, h) l = .ok out ∧
        Stage adds pc' done' cur' out.1 out.2 :=
    fun hcall hs' => ⟨_, _, _, callbackStep_silent hcall, hs'⟩
  cases hl with
  | beginFastcgi n | testBreak n | testBreakExit n | fastcgiEnd n =>
    exact hsilent rfl (hs.silent trivial (.inl ⟨rfl, rfl⟩))
  | initializeCb n =>
    obtain ⟨out, hout, hs'⟩ := hs.initialize
    exact ⟨out, _, _, hout, hs'⟩
  | poll n hn => exact hsilent rfl (hs.silent hn (.inr ⟨n, n, rfl, rfl, le_rfl⟩))
  | pollEnd n => exact hsilent rfl (hs.silent trivial (.inr ⟨n, _, rfl, rfl, hs.counted⟩))
  | fireTimeout n =>
    exact hsilent rfl
      (hs.silent (Nat.succ_le_of_lt hs.counted) (.inr ⟨n, n + 1, rfl, rfl, n.le_succ⟩))
  | fireTaken n | readReq n =>
    exact hsilent rfl (hs.silent hs.counted (.inr ⟨n, n, rfl, rfl, le_rfl⟩))
  | call r n =>
    obtain ⟨out, cur', hout, hs'⟩ := hs.call r
    exact ⟨out, _, _, hout, hs'⟩
  | ret r x n | writeRes n =>
    exact hsilent rfl (hs.silent hs.counted (.inr ⟨n + 1, n + 1, rfl, rfl, le_rfl⟩))
  | setDone n =>
    exact hsilent rfl (hs.silent (Nat.succ_le_of_lt hs.counted)
      (.inr ⟨n + 1, n + 1, rfl, rfl, le_rfl⟩))
  | finializeCb n =>
    obtain ⟨out, done', hout, hs'⟩ := hs.finialize
    exact ⟨out, _, _, hout, hs'⟩

/-- The other threads call nothing. -/
theorem callback_of_not (hl : l.ofFastcgi = false) (h : WsgiHandle κ) :
    callback h l = .ok ([], h) := by
  cases l with
  | initializeCb | call | finializeCb => cases hl
  | _ => rfl

end Run

/-- **In every run of the server the worker goes through rounds**, step by step:
its own steps are those of `step_stage`, and the steps of the others call
nothing. -/
theorem run_stage [DecidableEq ι] {tr : List (Label ι ρ)} {s : Mpm.State ι ρ}
    (adds : List (Registration κ)) (hrun : (Mpm.mpm ι ρ).Run (Mpm.init ι ρ) tr s) :
    ∃ out done cur, callbacks (register adds) tr = .ok out ∧
      Stage adds (s.fastcgi.pc, s.fastcgi.nrRequest) done cur out.1 out.2 := by
  refine Lib.Machine.run_induction (P := fun tr s => ∃ out done cur,
    callbacks (register adds) tr = .ok out ∧
      Stage adds (s.fastcgi.pc, s.fastcgi.nrRequest) done cur out.1 out.2) ?_ ?_ hrun
  · refine ⟨_, [], none, rfl, rfl, ⟨none, ?_⟩, ?_, ?_, trivial, iff_of_true rfl rfl, ?_⟩
    · rw [handleAt, register_eq]
      rfl
    · intro requests hcur
      cases hcur
    · exact fun requests hmem => absurd hmem List.not_mem_nil
    · intro requests hcur
      cases hcur
  · rintro tr s l - ⟨⟨events, h⟩, done, cur, hout, hs⟩ hl
    have hconcat : callbacks (register adds) (tr ++ [l]) = callbackStep (events, h) l := by
      rw [callbacks, List.foldlM_append, ← callbacks, hout]
      show [l].foldlM callbackStep (events, h) = _
      rw [List.foldlM_cons]
      exact bind_pure _
    rw [hconcat]
    cases hworker : l.ofFastcgi with
    | true => exact step_stage (Mpm.fastcgi_step hl hworker) hs
    | false =>
      refine ⟨_, done, cur, callbackStep_silent (callback_of_not hworker h), ?_⟩
      show Stage adds ((Mpm.next s l).fastcgi.pc, (Mpm.next s l).fastcgi.nrRequest) _ _ _ _
      rw [Mpm.next_fastcgi_of_not hworker]
      exact hs

/-! ### Heaps -/

/-- Each request is processed on a heap that was made and initialised and is not
destroyed yet. -/
def UsesLiveHeap (adds : List (Registration κ)) (events : List (Event κ)) : Prop :=
  ∀ before after ctx req, events = before ++ .process ctx req :: after →
    ∃ heap, ctx = some heap ∧ .createHeap heap ∈ before ∧
      (∀ c ∈ inits adds, .init c ctx ∈ before) ∧ .destroyHeap heap ∉ before

section Heaps

variable {k : ℕ} {ends : List (Event κ)}

/-- A division of two lists at an element divides one of them there. -/
theorem append_eq_append_cons {α : Type} {l l' before after : List α} {x : α}
    (h : l ++ l' = before ++ x :: after) :
    (∃ a, l = before ++ x :: a) ∨ ∃ b, before = l ++ b ∧ l' = b ++ x :: after := by
  rcases List.append_eq_append_iff.1 h with ⟨b, hb, hl'⟩ | ⟨b, hl, hx⟩
  · exact .inr ⟨b, hb, hl'⟩
  · cases b with
    | nil => exact .inr ⟨[], by rw [hl, List.append_nil, List.append_nil], hx.symm⟩
    | cons y b =>
      obtain ⟨rfl, -⟩ := List.cons.inj hx
      exact .inl ⟨b, hl⟩

/-- One more round, on a heap that is new: no event before it destroys that
heap, and within the round it is destroyed last. -/
theorem UsesLiveHeap.append (hlive : UsesLiveHeap adds events)
    (requests : List (Option ℕ)) (hnew : .destroyHeap k ∉ events)
    (hends : ∀ e ∈ ends, ∀ ctx req, e ≠ .process ctx req) :
    UsesLiveHeap adds (events ++ (opening adds k requests ++ ends)) := by
  intro before after ctx req he
  rcases append_eq_append_cons he with ⟨a, ha⟩ | ⟨b, rfl, hb⟩
  · exact hlive before a ctx req ha
  rcases append_eq_append_cons hb with ⟨a, ha⟩ | ⟨b, rfl, hafter⟩
  · rcases append_eq_append_cons ha with ⟨a, ha⟩ | ⟨b, rfl, hreq⟩
    · -- nothing is processed before the heap is initialised
      have hmem : Event.process ctx req ∈
          Event.createHeap k :: (inits adds).map (.init · (some k)) := by
        rw [ha]
        exact List.mem_append_right _ (List.mem_cons_self ..)
      simp at hmem
    · have hmem : (Event.process ctx req : Event κ) ∈ requests.map (Event.process (some k)) := by
        rw [hreq]
        exact List.mem_append_right _ (List.mem_cons_self ..)
      obtain ⟨r, -, hr⟩ := List.mem_map.1 hmem
      obtain ⟨rfl, rfl⟩ := Event.process.inj hr
      refine ⟨k, rfl, by simp, fun c hc => ?_, fun hd => ?_⟩
      · simp [hc]
      · have hbefore : .destroyHeap k ∈ b := by simpa [hnew] using hd
        have hmem' : (Event.destroyHeap k : Event κ) ∈ requests.map (Event.process (some k)) := by
          rw [hreq]
          exact List.mem_append_left _ hbefore
        simp at hmem'
  · refine absurd rfl (hends _ ?_ ctx req)
    rw [hafter]
    exact List.mem_append_right _ (List.mem_cons_self ..)

/-- Complete rounds destroy their own heaps only, and each round has the next
number. -/
theorem rounds_live (adds : List (Registration κ)) (done : List (List (Option ℕ))) :
    UsesLiveHeap adds (rounds adds done) ∧
      ∀ k, done.length ≤ k → .destroyHeap k ∉ rounds adds done := by
  induction done using List.reverseRecOn with
  | nil =>
    refine ⟨fun before after ctx req he => ?_, fun _ _ => List.not_mem_nil⟩
    cases before <;> cases he
  | append_singleton done requests ih =>
    obtain ⟨hlive, hnew⟩ := ih
    rw [rounds_concat]
    refine ⟨hlive.append requests (hnew _ le_rfl) fun e he ctx req => ?_, fun k hk hmem => ?_⟩
    · rintro rfl
      simp [closing] at he
    · rw [List.length_append, List.length_singleton] at hk
      have hold := hnew k (by omega)
      simp [opening, closing, hold] at hmem
      omega

end Heaps

/-! ### The callbacks of a run -/

/-- What the worker has called in a run that leads to the state `s`: complete
rounds and, as long as it runs, the beginning of one; and each request is
processed on a live heap. -/
def InRounds (adds : List (Registration κ)) (tr : List (Label ι ρ)) (s : Mpm.State ι ρ) : Prop :=
  ∃ events h done rest, callbacks (register adds) tr = .ok (events, h) ∧
    events = rounds adds done ++ rest ∧
    (∀ requests ∈ done, requests.length ≤ HTTP_MPM_MAX_REQUESTS) ∧
    (rest = [] ∨ ∃ requests, requests.length ≤ HTTP_MPM_MAX_REQUESTS ∧
      rest = opening adds done.length requests) ∧
    (s.fastcgi.pc = .ended → rest = []) ∧ UsesLiveHeap adds events

/-- A round has at most `HTTP_MPM_MAX_REQUESTS` requests.  The inner loop of the
worker ends then, whether the waits were answered or timed out. -/
theorem called_le {pc : FastcgiPc × ℕ} {m : ℕ} (hc : Counted pc) (hm : called pc = some m) :
    m ≤ HTTP_MPM_MAX_REQUESTS := by
  obtain ⟨pc, n⟩ := pc
  cases pc with
  | poll => exact Option.some.inj hm ▸ hc
  | waitFire | readReq | call => exact Option.some.inj hm ▸ Nat.le_of_lt hc
  | process | writeRes | setDone => exact Option.some.inj hm ▸ Nat.succ_le_of_lt hc
  | finializeCb => exact (Option.some.inj hm).ge
  | _ => cases hm

/-- **The worker calls all initialisers in order, at most
`HTTP_MPM_MAX_REQUESTS` requests, and all finalisers in reverse order, round by
round**, in every run of the server and for all registrations. -/
theorem callbacks_rounds [DecidableEq ι] {tr : List (Label ι ρ)} {s : Mpm.State ι ρ}
    (adds : List (Registration κ)) (hrun : (Mpm.mpm ι ρ).Run (Mpm.init ι ρ) tr s) :
    InRounds adds tr s := by
  obtain ⟨⟨events, h⟩, done, cur, hout, hs⟩ := run_stage adds hrun
  obtain ⟨hlive, hnew⟩ := rounds_live adds done
  refine ⟨events, h, done, _, hout, hs.events_eq, hs.done_le, ?_, ?_, ?_⟩
  · cases cur with
    | none => exact .inl rfl
    | some requests =>
      obtain ⟨m, hm⟩ := Option.ne_none_iff_exists'.1 (mt hs.between.1 (Option.some_ne_none _))
      exact .inr ⟨requests, (hs.cur_le requests rfl m hm).trans (called_le hs.counted hm), rfl⟩
  · intro hended
    have hnone : called (s.fastcgi.pc, s.fastcgi.nrRequest) = none := by
      rw [hended]
      rfl
    rw [hs.between.1 hnone]
    rfl
  · rw [show events = _ from hs.events_eq]
    cases cur with
    | none => simpa using hlive
    | some requests =>
      have happend := hlive.append requests (hnew _ le_rfl)
        (fun e he => absurd he List.not_mem_nil)
      simpa using happend

/-- Two callbacks in each chain, and a run with one request. -/
def customAdds : List (Registration ℕ) := [.init 1, .fini 2, .init 3, .fini 4]

def servedOnce : List (Label Unit ℕ) :=
  [.start, .beginFastcgi, .testBreak, .initializeCb, .pollAccepter, .accept (some ()),
    .recv () true, .take (), .publish () (some 0), .setFire (), .pollFastcgi, .fireTaken, .readReq,
    .call (some 0), .ret (some 0) (some 7), .writeRes, .setDone, .setBreakAccepter,
    .setBreakFastcgi, .pollFastcgi, .finializeCb, .testBreak, .fastcgiEnd]

example : (callbacks (register customAdds) servedOnce).map Prod.fst =
    .ok [.createHeap 0, .init 1 (some 0), .init 3 (some 0), .process (some 0) (some 0),
      .fini 4 (some 0), .fini 2 (some 0), .destroyHeap 0] := by
  rfl

/-- Satisfiability. -/
theorem callbacks_rounds_servedOnce :
    InRounds customAdds servedOnce ((Mpm.mpm Unit ℕ).exec (Mpm.init Unit ℕ) servedOnce) :=
  callbacks_rounds customAdds (Lib.Machine.run_iff_exec.2 ⟨by decide +kernel, rfl⟩)

end Wsgi
end Dukserver
