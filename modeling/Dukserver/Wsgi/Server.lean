/-
# A server from its creation to its end

`libhttpd/wsgi_server.c` (`wsgi_create`, `wsgi_start`, `wsgi_close` and the chains) over
`http_mpm_create`, `http_mpm_start` and `http_mpm_close` of `libhttpd/http_mpm.c`, in blocks
of memory, as `server` of `test/duk_server.c` uses them; `main` reports a memory leak if
`http_memory_usage()` is not 0 then.

The handle that `http_mpm_start` allocates is freed by the accepter, and the one that the
accepter allocates for the worker is freed by the worker, both before `http_mpm_close` has
waited for them.  The connections run at the same time, in threads of their own, and so do
the scripts, whose interpreter is given the same allocator: `threads_balanced`
(`Wsgi.Interleave`) is about every interleaving of all of these.
-/

import Dukserver.Http.ByCalls
import Dukserver.Mpm.Connections
import Dukserver.Wsgi.Chains

namespace Dukserver
namespace Wsgi
namespace Blocks

open Lib (Bytes ascii)
open Lib.Effects (Ends ends_pure)
open Sys (Alloc Allocator Heap Owns httpMalloc httpRealloc httpFree MEMORY_LEN)
open Http.Blocks (Str ServerT Listening createdBlocks httpStrdup httpdCreate httpdDestroy
  httpdCreate_ends httpdDestroy_ends httpStrdup_ends)
open Mpm.Blocks (MPM_HANDLE_SIZE)

/-- `sizeof(http_sys_handle_t)`, `sizeof(wsgi_handle_t)`, `sizeof(wsgi_chain_t)`
and `sizeof(char*)`. -/
def SYS_HANDLE_SIZE : ℤ := 80
def WSGI_HANDLE_SIZE : ℤ := 56
def CHAIN_SIZE : ℤ := 16
def ARG_SIZE : ℤ := 8

/-- `http_event_new` and `http_mutex_new`. -/
def sysHandleNew (A : Allocator) : Alloc ℕ := httpMalloc A SYS_HANDLE_SIZE

/-- `http_mpm_handle_t` of the main thread with its blocks. -/
structure MpmT where
  p : ℕ
  srv : ServerT
  eventBreakAccepter : ℕ
  eventBreakFastcgi : ℕ
  eventAccepterExit : ℕ
  eventFastcgiExit : ℕ
  mutexFastcgi : ℕ
  eventFire : ℕ
  eventDone : ℕ

/-- `http_mpm_create`. -/
def httpMpmCreate (A : Allocator) (ip : Bytes) (port : ℤ) (answer : Listening) :
    Alloc (Option MpmT) := do
  match ← httpdCreate A none (some ip) port answer with
  | none => return none
  | some srv => do
    let p ← httpMalloc A MPM_HANDLE_SIZE
    let eventBreakAccepter ← sysHandleNew A
    let eventBreakFastcgi ← sysHandleNew A
    let eventAccepterExit ← sysHandleNew A
    let eventFastcgiExit ← sysHandleNew A
    let mutexFastcgi ← sysHandleNew A
    let eventFire ← sysHandleNew A
    let eventDone ← sysHandleNew A
    return some ⟨p, srv, eventBreakAccepter, eventBreakFastcgi, eventAccepterExit,
      eventFastcgiExit, mutexFastcgi, eventFire, eventDone⟩

/-- `http_mpm_close`, behind its two waits. -/
def httpMpmClose (h : MpmT) : Alloc PUnit := do
  httpFree h.eventBreakAccepter
  httpFree h.eventBreakFastcgi
  httpFree h.eventAccepterExit
  httpFree h.eventFastcgiExit
  httpFree h.mutexFastcgi
  httpFree h.eventFire
  httpFree h.eventDone
  httpdDestroy h.srv
  httpFree h.p

/-- A chain of callbacks: `nr_init` and `init_chain`, or `nr_fini` and
`fini_chain`. -/
structure ChainT where
  nr : ℕ
  p : ℕ

/-- `wsgi_handle_t` with its blocks, without the arguments. -/
structure WsgiT where
  p : ℕ
  mpm : MpmT
  initChain : ChainT
  finiChain : ChainT

/-- `wsgi_create`. -/
def wsgiCreate (A : Allocator) (ip : Bytes) (port : ℤ) (answer : Listening) :
    Alloc (Option WsgiT) := do
  let p ← httpMalloc A WSGI_HANDLE_SIZE
  match ← httpMpmCreate A ip port answer with
  | none => do
    httpFree p
    return none
  | some mpm => return some ⟨p, mpm, ⟨0, 0⟩, ⟨0, 0⟩⟩

/-- What `wsgi_add_initialize_chain` and `wsgi_add_finalize_chain` do to their
chain. -/
def addChain (A : Allocator) (c : ChainT) : Alloc ChainT :=
  if c.nr = 0 then do
    let p ← httpMalloc A CHAIN_SIZE
    return ⟨1, p⟩
  else do
    let p ← httpRealloc A c.p (CHAIN_SIZE * (c.nr + 1 : ℕ))
    return ⟨c.nr + 1, p⟩

/-- `wsgi_add_initialize_chain` or `wsgi_add_finalize_chain`. -/
def wsgiAddChain {κ : Type} (A : Allocator) (h : WsgiT) : Registration κ → Alloc WsgiT
  | .init _ => do
    let initChain ← addChain A h.initChain
    return { h with initChain }
  | .fini _ => do
    let finiChain ← addChain A h.finiChain
    return { h with finiChain }

/-- The loop of `wsgi_start` over `argv`. -/
def copyArgs (A : Allocator) : List Bytes → Alloc (List Str)
  | [] => return []
  | arg :: argv => do
    let s ← httpStrdup A arg
    let rest ← copyArgs A argv
    return s :: rest

/-- What `wsgi_start` leaves: the copy of `argv`, and the handle of the
accepter. -/
structure StartedT where
  args : ℕ
  argc : ℕ
  argv : List Str
  cfg : ℕ

/-- `wsgi_start`, with an argument. -/
def wsgiStart (A : Allocator) (argv : List Bytes) : Alloc StartedT := do
  let args ← httpMalloc A (ARG_SIZE * argv.length)
  let copies ← copyArgs A argv
  let cfg ← httpMalloc A MPM_HANDLE_SIZE
  return ⟨args, argv.length, copies, cfg⟩

/-- The loop of `wsgi_close` over `argv`. -/
def freeArgs : List Str → Alloc PUnit
  | [] => return ⟨⟩
  | s :: rest => do
    httpFree s.p
    freeArgs rest

/-- A chain is freed if it has a callback. -/
def freeChain (c : ChainT) : Alloc PUnit := if 0 < c.nr then httpFree c.p else return ⟨⟩

/-- `wsgi_close`. -/
def wsgiClose (h : WsgiT) (started : StartedT) : Alloc PUnit := do
  httpMpmClose h.mpm
  freeArgs started.argv
  httpFree started.args
  freeChain h.initChain
  freeChain h.finiChain
  httpFree h.p

/-- What `_worker_accepter` and `_worker_fastcgi` free before they set their
events. -/
def endThreads (accepterFirst : Bool) (cfg fastcgi : ℕ) : Alloc PUnit :=
  if accepterFirst then do
    httpFree cfg
    httpFree fastcgi
  else do
    httpFree fastcgi
    httpFree cfg

/-- `server` of `test/duk_server.c`, and whether there was one. -/
def server {κ : Type} (A : Allocator) (answer : Listening) (adds : List (Registration κ))
    (argv : List Bytes) (accepterFirst : Bool) : Alloc Bool :=
  if argv = [] then return false
  else do
    match ← wsgiCreate A (ascii "0.0.0.0") 1000 answer with
    | none => return false
    | some h => do
      let h ← adds.foldlM (wsgiAddChain A) h
      let started ← wsgiStart A argv
      -- `_worker_accepter` allocates the handle of `_worker_fastcgi`
      let fastcgi ← httpMalloc A MPM_HANDLE_SIZE
      endThreads accepterFirst started.cfg fastcgi
      wsgiClose h started
      return true

/-! ### What is owned -/

/-- The block of a chain. -/
def ChainT.blocks (c : ChainT) : Sys.Blocks :=
  if c.nr = 0 then 0 else Sys.block c.p (CHAIN_SIZE * c.nr)

/-- The blocks of the copies of `argv`. -/
def argBlocks : List Str → Sys.Blocks
  | [] => 0
  | s :: rest => s.block + argBlocks rest

/-- The blocks of a handle. -/
def MpmT.blocks (h : MpmT) : Sys.Blocks :=
  Sys.block h.eventBreakAccepter SYS_HANDLE_SIZE + (Sys.block h.eventBreakFastcgi SYS_HANDLE_SIZE +
    (Sys.block h.eventAccepterExit SYS_HANDLE_SIZE + (Sys.block h.eventFastcgiExit SYS_HANDLE_SIZE +
      (Sys.block h.mutexFastcgi SYS_HANDLE_SIZE + (Sys.block h.eventFire SYS_HANDLE_SIZE +
        (Sys.block h.eventDone SYS_HANDLE_SIZE + (createdBlocks (some h.srv) +
          Sys.block h.p MPM_HANDLE_SIZE)))))))

/-- The blocks of what `http_mpm_create` returns. -/
def mpmBlocks : Option MpmT → Sys.Blocks
  | none => 0
  | some h => h.blocks

/-- The blocks of a handle, without the arguments. -/
def WsgiT.blocks (h : WsgiT) : Sys.Blocks :=
  h.mpm.blocks + (h.initChain.blocks + (h.finiChain.blocks + Sys.block h.p WSGI_HANDLE_SIZE))

/-- The blocks of what `wsgi_create` returns. -/
def wsgiBlocks : Option WsgiT → Sys.Blocks
  | none => 0
  | some h => h.blocks

section Server

variable {A : Allocator} {h : Heap} {M : Sys.Blocks}

/-- One more event or mutex, in a block of its own. -/
theorem sysHandleNew_seq {β : Type} {f : ℕ → Alloc β} {R : β → Heap → Prop} {n : ℕ}
    (ho : Owns h M) (hroom : M.card + (n + 1) ≤ MEMORY_LEN)
    (hf : ∀ a t, Owns t (Sys.block a SYS_HANDLE_SIZE + M) →
      (Sys.block a SYS_HANDLE_SIZE + M).card + n ≤ MEMORY_LEN → Ends (f a) t R) :
    Ends (sysHandleNew A >>= f) h R :=
  (Sys.httpMalloc_ends ho (by omega) SYS_HANDLE_SIZE).seq fun a t ht =>
    hf a t ht (by rw [Multiset.card_add, Sys.card_block]; omega)

/-- A server socket has three blocks. -/
@[simp] theorem card_createdBlocks (srv : ServerT) : (createdBlocks (some srv)).card = 3 := by
  simp only [createdBlocks, Str.block, Multiset.card_add, Sys.card_block]

/-- A handle has eleven: those of its socket, and of six events and a mutex. -/
@[simp] theorem MpmT.card_blocks (m : MpmT) : m.blocks.card = 11 := by
  simp only [MpmT.blocks, Multiset.card_add, Sys.card_block, card_createdBlocks]

/-- **`http_mpm_create` frees what it does not return**, on each of its ways
out. -/
theorem httpMpmCreate_ends (ho : Owns h M) (hroom : M.card + 11 ≤ MEMORY_LEN) (ip : Bytes)
    (port : ℤ) (answer : Listening) :
    Ends (httpMpmCreate A ip port answer) h fun r t =>
      Owns t (mpmBlocks r + M) ∧ (r.isSome ↔ answer = .listening) := by
  refine (httpdCreate_ends ho (by omega) none (some ip) port answer).seq ?_
  rintro srv t ⟨ht, hsome⟩
  cases srv with
  | none => exact ends_pure ⟨ht, by simpa using hsome⟩
  | some srv =>
    refine (Sys.httpMalloc_ends ht (by
      rw [Multiset.card_add, card_createdBlocks]; omega) MPM_HANDLE_SIZE).seq fun p t hp => ?_
    have hroom' : (Sys.block p MPM_HANDLE_SIZE + (createdBlocks (some srv) + M)).card + 7 ≤
        MEMORY_LEN := by
      rw [Multiset.card_add, Multiset.card_add, Sys.card_block, card_createdBlocks]
      omega
    refine sysHandleNew_seq hp hroom' fun a₁ t h₁ r₁ => ?_
    refine sysHandleNew_seq h₁ r₁ fun a₂ t h₂ r₂ => ?_
    refine sysHandleNew_seq h₂ r₂ fun a₃ t h₃ r₃ => ?_
    refine sysHandleNew_seq h₃ r₃ fun a₄ t h₄ r₄ => ?_
    refine sysHandleNew_seq h₄ r₄ fun a₅ t h₅ r₅ => ?_
    refine sysHandleNew_seq h₅ r₅ fun a₆ t h₆ r₆ => ?_
    refine sysHandleNew_seq h₆ r₆ fun a₇ t h₇ _ => ends_pure ⟨h₇.of_eq ?_, by simpa using hsome⟩
    rw [mpmBlocks, MpmT.blocks]
    abel

/-- **`http_mpm_close` frees the handle**, behind its events. -/
theorem httpMpmClose_ends {m : MpmT} (ho : Owns h (m.blocks + M)) :
    Ends (httpMpmClose m) h fun _ t => Owns t M := by
  simp only [MpmT.blocks, add_assoc] at ho
  refine (Sys.httpFree_ends ho).seq fun _ t h₁ => ?_
  refine (Sys.httpFree_ends h₁).seq fun _ t h₂ => ?_
  refine (Sys.httpFree_ends h₂).seq fun _ t h₃ => ?_
  refine (Sys.httpFree_ends h₃).seq fun _ t h₄ => ?_
  refine (Sys.httpFree_ends h₄).seq fun _ t h₅ => ?_
  refine (Sys.httpFree_ends h₅).seq fun _ t h₆ => ?_
  refine (Sys.httpFree_ends h₆).seq fun _ t h₇ => ?_
  exact (httpdDestroy_ends h₇).seq fun _ t h₈ => Sys.httpFree_ends h₈

/-- **`wsgi_create` frees what it does not return**: it has nothing if it gets
no handle. -/
theorem wsgiCreate_ends (ho : Owns h M) (hroom : M.card + 12 ≤ MEMORY_LEN) (ip : Bytes)
    (port : ℤ) (answer : Listening) :
    Ends (wsgiCreate A ip port answer) h fun r t =>
      Owns t (wsgiBlocks r + M) ∧ (r.isSome ↔ answer = .listening) := by
  refine (Sys.httpMalloc_ends ho (by omega) WSGI_HANDLE_SIZE).seq fun p t hp => ?_
  refine (httpMpmCreate_ends hp (by rw [Multiset.card_add, Sys.card_block]; omega) ip port
    answer).seq ?_
  rintro mpm t ⟨ht, hsome⟩
  cases mpm with
  | none =>
    refine (Sys.httpFree_ends (ht.of_eq (zero_add _))).seq fun _ t ht => ?_
    exact ends_pure ⟨ht.of_eq (zero_add M).symm, by simpa using hsome⟩
  | some mpm =>
    refine ends_pure ⟨ht.of_eq ?_, by simpa using hsome⟩
    simp only [mpmBlocks, wsgiBlocks, WsgiT.blocks, ChainT.blocks, if_pos, zero_add, add_assoc]

/-! ### The chains -/

/-- **A chain has one block**, however many callbacks it has: it is given out
anew for each, with room for one more. -/
theorem addChain_ends {c : ChainT} (ho : Owns h (c.blocks + M)) (hroom : M.card < MEMORY_LEN) :
    Ends (addChain A c) h fun c' t => Owns t (c'.blocks + M) := by
  unfold addChain
  split_ifs with hnr
  · rw [ChainT.blocks, if_pos hnr, zero_add] at ho
    exact (Sys.httpMalloc_ends ho hroom CHAIN_SIZE).seq fun p t ht => ends_pure ht
  · rw [ChainT.blocks, if_neg hnr] at ho
    refine (Sys.httpRealloc_ends ho _).seq fun p t ht => ends_pure (ht.of_eq ?_)
    rw [ChainT.blocks, if_neg (Nat.succ_ne_zero _)]

/-- The block of a chain is freed, if there is one.  A chain without a callback
has never been allocated. -/
theorem freeChain_ends {c : ChainT} (ho : Owns h (c.blocks + M)) :
    Ends (freeChain c) h fun _ t => Owns t M := by
  unfold freeChain
  split_ifs with hnr
  · rw [ChainT.blocks, if_neg hnr.ne'] at ho
    exact Sys.httpFree_ends ho
  · rw [ChainT.blocks, if_pos (Nat.eq_zero_of_not_pos hnr), zero_add] at ho
    exact ends_pure ho

/-- A chain without callbacks has no block. -/
theorem ChainT.card_blocks (c : ChainT) : c.blocks.card ≤ 1 := by
  unfold ChainT.blocks
  split_ifs
  · exact Nat.zero_le _
  · rw [Sys.card_block]

/-- **A registration changes one chain**, and takes no block where the chain has
one. -/
theorem wsgiAddChain_ends {κ : Type} {w : WsgiT} (ho : Owns h (w.blocks + M))
    (hroom : M.card + 14 ≤ MEMORY_LEN) (add : Registration κ) :
    Ends (wsgiAddChain A w add) h fun w' t => Owns t (w'.blocks + M) := by
  have hinit := w.initChain.card_blocks
  have hfini := w.finiChain.card_blocks
  cases add with
  | init c =>
    rw [WsgiT.blocks, show w.mpm.blocks + (w.initChain.blocks + (w.finiChain.blocks +
      Sys.block w.p WSGI_HANDLE_SIZE)) + M = w.initChain.blocks + (w.mpm.blocks +
      (w.finiChain.blocks + (Sys.block w.p WSGI_HANDLE_SIZE + M))) by abel] at ho
    refine (addChain_ends ho ?_).seq fun c t ht => ends_pure (ht.of_eq ?_)
    · simp only [Multiset.card_add, Sys.card_block, MpmT.card_blocks]
      omega
    · rw [WsgiT.blocks]
      abel
  | fini c =>
    rw [WsgiT.blocks, show w.mpm.blocks + (w.initChain.blocks + (w.finiChain.blocks +
      Sys.block w.p WSGI_HANDLE_SIZE)) + M = w.finiChain.blocks + (w.mpm.blocks +
      (w.initChain.blocks + (Sys.block w.p WSGI_HANDLE_SIZE + M))) by abel] at ho
    refine (addChain_ends ho ?_).seq fun c t ht => ends_pure (ht.of_eq ?_)
    · simp only [Multiset.card_add, Sys.card_block, MpmT.card_blocks]
      omega
    · rw [WsgiT.blocks]
      abel

/-- **Any registrations**, one after the other: the server has fourteen blocks
at most. -/
theorem register_ends {κ : Type} {w : WsgiT} (ho : Owns h (w.blocks + M))
    (hroom : M.card + 14 ≤ MEMORY_LEN) (adds : List (Registration κ)) :
    Ends (adds.foldlM (wsgiAddChain A) w) h fun w' t => Owns t (w'.blocks + M) := by
  induction adds generalizing w h with
  | nil => exact ends_pure ho
  | cons add adds ih =>
    rw [List.foldlM_cons]
    exact (wsgiAddChain_ends ho hroom add).seq fun w' t ht => ih ht

/-! ### The arguments -/

/-- Each argument is copied, and each copy is one block.  With the array of the
pointers this is what `wsgi_close` frees again. -/
theorem copyArgs_ends (argv : List Bytes) (ho : Owns h M)
    (hroom : M.card + argv.length ≤ MEMORY_LEN) :
    Ends (copyArgs A argv) h fun copies t =>
      Owns t (argBlocks copies + M) ∧ (argBlocks copies).card = argv.length := by
  induction argv generalizing h M with
  | nil => exact ends_pure ⟨ho.of_eq (zero_add M).symm, rfl⟩
  | cons arg argv ih =>
    rw [List.length_cons] at hroom
    refine (httpStrdup_ends ho (by omega) arg).seq ?_
    rintro s t ⟨hs, -⟩
    refine (ih hs (by rw [Multiset.card_add, Str.block, Sys.card_block]; omega)).seq ?_
    rintro copies t ⟨ht, hcard⟩
    refine ends_pure ⟨ht.of_eq ?_, ?_⟩
    · rw [argBlocks]
      abel
    · rw [argBlocks, Multiset.card_add, Str.block, Sys.card_block, hcard, List.length_cons]
      omega

/-- And each copy freed. -/
theorem freeArgs_ends (argv : List Str) (ho : Owns h (argBlocks argv + M)) :
    Ends (freeArgs argv) h fun _ t => Owns t M := by
  induction argv generalizing h with
  | nil => exact ends_pure (ho.of_eq (zero_add M))
  | cons s rest ih =>
    rw [argBlocks, add_assoc] at ho
    exact (Sys.httpFree_ends ho).seq fun _ t ht => ih ht

/-- The blocks that `wsgi_start` allocates, without the handle of the accepter. -/
def StartedT.blocks (s : StartedT) : Sys.Blocks :=
  argBlocks s.argv + Sys.block s.args (ARG_SIZE * s.argc)

/-- **`wsgi_start` copies the arguments** for the worker, and takes one handle
for the accepter. -/
theorem wsgiStart_ends (argv : List Bytes) (ho : Owns h M)
    (hroom : M.card + (argv.length + 2) ≤ MEMORY_LEN) :
    Ends (wsgiStart A argv) h fun s t =>
      Owns t (Sys.block s.cfg MPM_HANDLE_SIZE + (s.blocks + M)) ∧
        s.blocks.card = argv.length + 1 := by
  refine (Sys.httpMalloc_ends ho (by omega) _).seq fun args t hargs => ?_
  refine (copyArgs_ends argv hargs (by rw [Multiset.card_add, Sys.card_block]; omega)).seq ?_
  rintro copies t ⟨hcopies, hcard⟩
  refine (Sys.httpMalloc_ends hcopies (by
    rw [Multiset.card_add, Multiset.card_add, Sys.card_block, hcard]; omega) _).seq
    fun cfg t ht => ends_pure ⟨ht.of_eq ?_, ?_⟩
  · rw [StartedT.blocks, add_assoc]
  · rw [StartedT.blocks, Multiset.card_add, Sys.card_block, hcard]

/-- **`wsgi_close` frees what was created and started**, except for the handles
of the two threads, which these free. -/
theorem wsgiClose_ends {w : WsgiT} {s : StartedT} (ho : Owns h (w.blocks + (s.blocks + M))) :
    Ends (wsgiClose w s) h fun _ t => Owns t M := by
  rw [show w.blocks + (s.blocks + M) = w.mpm.blocks + (argBlocks s.argv +
    (Sys.block s.args (ARG_SIZE * s.argc) + (w.initChain.blocks + (w.finiChain.blocks +
    (Sys.block w.p WSGI_HANDLE_SIZE + M))))) by rw [WsgiT.blocks, StartedT.blocks]; abel] at ho
  refine (httpMpmClose_ends ho).seq fun _ t h₁ => ?_
  refine (freeArgs_ends _ h₁).seq fun _ t h₂ => ?_
  refine (Sys.httpFree_ends h₂).seq fun _ t h₃ => ?_
  refine (freeChain_ends h₃).seq fun _ t h₄ => ?_
  exact (freeChain_ends h₄).seq fun _ t h₅ => Sys.httpFree_ends h₅

/-- The two threads free their handles, in any order.  Each handle is freed by
the thread that was given it. -/
theorem endThreads_ends {cfg fastcgi : ℕ} (accepterFirst : Bool)
    (ho : Owns h (Sys.block fastcgi MPM_HANDLE_SIZE + (Sys.block cfg MPM_HANDLE_SIZE + M))) :
    Ends (endThreads accepterFirst cfg fastcgi) h fun _ t => Owns t M := by
  unfold endThreads
  split_ifs
  · rw [add_left_comm] at ho
    exact (Sys.httpFree_ends ho).seq fun _ t ht => Sys.httpFree_ends ht
  · exact (Sys.httpFree_ends ho).seq fun _ t ht => Sys.httpFree_ends ht

/-- **A server gives back what it has taken**, and there is one if the operating
system has a socket that listens. -/
theorem server_ends {κ : Type} (answer : Listening) (adds : List (Registration κ))
    (argv : List Bytes) (accepterFirst : Bool) (ho : Owns h M)
    (hroom : M.card + (argv.length + 17) ≤ MEMORY_LEN) :
    Ends (server A answer adds argv accepterFirst) h fun r t =>
      Owns t M ∧ (r = true ↔ argv ≠ [] ∧ answer = .listening) := by
  unfold server
  split_ifs with hargv
  · exact ends_pure ⟨ho, by simp [hargv]⟩
  · refine (wsgiCreate_ends ho (by omega) _ _ answer).seq ?_
    rintro w t ⟨hw, hsome⟩
    cases w with
    | none => exact ends_pure ⟨hw.of_eq (zero_add M), by simpa [hargv] using hsome⟩
    | some w =>
      refine (register_ends hw (by omega) adds).seq fun w t hw => ?_
      have hinit := w.initChain.card_blocks
      have hfini := w.finiChain.card_blocks
      have hcard : w.blocks.card ≤ 14 := by
        simp only [WsgiT.blocks, Multiset.card_add, Sys.card_block, MpmT.card_blocks]
        omega
      refine (wsgiStart_ends argv hw (by rw [Multiset.card_add]; omega)).seq ?_
      rintro s t ⟨hs, hstarted⟩
      refine (Sys.httpMalloc_ends hs (by
        simp only [Multiset.card_add, Sys.card_block, hstarted]
        omega) MPM_HANDLE_SIZE).seq fun fastcgi t ht => ?_
      refine (endThreads_ends accepterFirst ht).seq fun _ t ht => ?_
      rw [add_left_comm] at ht
      exact (wsgiClose_ends ht).seq fun _ t ht => ends_pure ⟨ht, by simpa [hargv] using hsome⟩

end Server

/-! ### The program as calls -/

section ByCalls

open Sys (ByCalls)

instance byCalls_sysHandleNew : ByCalls sysHandleNew := by
  unfold sysHandleNew
  infer_instance

instance byCalls_httpMpmCreate (ip : Bytes) (port : ℤ) (answer : Listening) :
    ByCalls fun A => httpMpmCreate A ip port answer := by
  unfold httpMpmCreate
  refine .seq inferInstance fun srv => ?_
  cases srv with
  | none => infer_instance
  | some srv =>
    simp only
    infer_instance

set_option synthInstance.maxSize 1000 in
instance byCalls_httpMpmClose (m : MpmT) : ByCalls fun _ => httpMpmClose m := by
  unfold httpMpmClose
  infer_instance

instance byCalls_wsgiCreate (ip : Bytes) (port : ℤ) (answer : Listening) :
    ByCalls fun A => wsgiCreate A ip port answer := by
  unfold wsgiCreate
  refine .seq inferInstance fun p => .seq inferInstance fun mpm => ?_
  cases mpm with
  | none =>
    simp only
    infer_instance
  | some mpm => infer_instance

instance byCalls_addChain (c : ChainT) : ByCalls fun A => addChain A c := by
  unfold addChain
  infer_instance

instance byCalls_wsgiAddChain {κ : Type} (w : WsgiT) (add : Registration κ) :
    ByCalls fun A => wsgiAddChain A w add := by
  unfold wsgiAddChain
  cases add with
  | init c =>
    simp only
    infer_instance
  | fini c =>
    simp only
    infer_instance

instance byCalls_copyArgs (argv : List Bytes) : ByCalls fun A => copyArgs A argv := by
  induction argv with
  | nil => exact Sys.byCalls_pure _
  | cons arg argv ih =>
    unfold copyArgs
    infer_instance

instance byCalls_wsgiStart (argv : List Bytes) : ByCalls fun A => wsgiStart A argv := by
  unfold wsgiStart
  infer_instance

instance byCalls_freeArgs (argv : List Str) : ByCalls fun _ => freeArgs argv := by
  induction argv with
  | nil => exact Sys.byCalls_pure _
  | cons s rest ih =>
    unfold freeArgs
    infer_instance

instance byCalls_freeChain (c : ChainT) : ByCalls fun _ => freeChain c := by
  unfold freeChain
  infer_instance

instance byCalls_wsgiClose (w : WsgiT) (s : StartedT) : ByCalls fun _ => wsgiClose w s := by
  unfold wsgiClose
  infer_instance

instance byCalls_endThreads (accepterFirst : Bool) (cfg fastcgi : ℕ) :
    ByCalls fun _ => endThreads accepterFirst cfg fastcgi := by
  unfold endThreads
  infer_instance

instance byCalls_server {κ : Type} (answer : Listening) (adds : List (Registration κ))
    (argv : List Bytes) (accepterFirst : Bool) :
    ByCalls fun A => server A answer adds argv accepterFirst := by
  unfold server
  split_ifs
  · infer_instance
  · refine .seq inferInstance fun w => ?_
    cases w with
    | none => infer_instance
    | some w =>
      simp only
      infer_instance

end ByCalls

end Blocks
end Wsgi
end Dukserver
