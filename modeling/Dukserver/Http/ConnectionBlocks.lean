/-
# Connections in blocks of memory

`libhttpd/http_server.c` and `libhttpd/http_client.c`: connections and servers that are
allocated, given to the sockets of the operating system, and freed, on success and on each
way to fail.  All of them give back what they have taken but one: where `socket_create`
fails, `http_connect` does not free the copy of the host (`httpConnect_ends`).

`clientRun` is the life of a connection on the side of the client, as in
`test/simple_client.c`.
-/

import Dukserver.Http.RecvBlocks

namespace Dukserver
namespace Http

open Lib (Bytes ascii cstr sprintfD)

/-- What `socket_accept` has answered: the address and the port of the peer, and
the socket. -/
structure Peer where
  ip : UInt8 × UInt8 × UInt8 × UInt8
  port : ℤ
  socket : Socket

/-- `"%d.%d.%d.%d"`. -/
def dotted (ip : UInt8 × UInt8 × UInt8 × UInt8) : Bytes :=
  sprintfD ip.1.toNat ++ ascii "." ++ (sprintfD ip.2.1.toNat ++ ascii "." ++
    (sprintfD ip.2.2.1.toNat ++ ascii "." ++ sprintfD ip.2.2.2.toNat))

/-- The connection to the peer. -/
def Peer.toConnection (peer : Peer) : HttpConnection := ⟨dotted peer.ip, peer.port, peer.socket⟩

/-- The address is text without a NUL.  So the copy that `http_strdup` makes is
the whole of it. -/
theorem cstr_dotted (ip : UInt8 × UInt8 × UInt8 × UInt8) : Lib.cstr (dotted ip) = dotted ip := by
  have hdigits : ∀ n : ℕ, (0 : UInt8) ∉ sprintfD n := fun n hmem =>
    absurd (Lib.isdigit_iff.1 ((Lib.numeral_sprintfD n).2.1 0 hmem)).1 (by decide)
  have hdot : (0 : UInt8) ∉ ascii "." := by decide
  refine Lib.cstr_of_not_mem ?_
  simp only [dotted, List.mem_append, not_or]
  exact ⟨⟨hdigits _, hdot⟩, ⟨hdigits _, hdot⟩, ⟨hdigits _, hdot⟩, hdigits _⟩

/-- What the operating system answers to `http_connect`. -/
inductive Connecting
  | noSocket
  | refused
  | connected (socket : Socket)
  deriving DecidableEq, Repr

/-- The connection that `http_connect` returns. -/
def Connecting.connection (name : Bytes) (port : ℤ) : Connecting → Option HttpConnection
  | .connected socket => some ⟨cstr name, port, socket⟩
  | _ => none

/-- A client that sends the request the calls build and receives the response. -/
def clientRun (files : Bytes → Option Bytes) (env : RecvEnv) (calls : List RequestCall) :
    Option HttpConnection → Except Fault (Option Received)
  | none => .ok none
  | some conn =>
    match httpSendRequest files conn (buildRequest calls) with
    | .error e => .error e
    | .ok (_, conn, _) =>
      match httpRecvResponse env conn with
      | .error e => .error e
      | .ok res => .ok (some res)

/-- Sending a request comes to an end: it sends a header block, and then the
blocks of a file or of the body. -/
theorem httpSendRequest_settles (files : Bytes → Option Bytes) (conn : HttpConnection)
    (ct : HttpContent) : Settles (fun _ => True) (httpSendRequest files conn ct) := by
  have hsplit : ∀ url, Settles (fun _ => True) (splitUrl url) := by
    intro url
    unfold splitUrl
    split
    · split_ifs
      · exact .ok trivial
      · split
        · split_ifs <;> exact .ok trivial
        · exact .error (by simp)
    · exact .ok trivial
  unfold httpSendRequest
  split
  · rename_i method url version _ _ _
    have hurl := hsplit url
    rw [preprocessRequest]
    generalize splitUrl url = r at hurl
    cases hurl with
    | error he => exact .error he
    | @ok r _ =>
      simp only
      generalize announceLength files _ = ct'
      have hload := load_settles ct' ct'.body
      generalize ct'.load ct'.body = loaded at hload
      generalize httpMapGet _ HTTP_SENDFILE = sendfile
      cases requestHead ct' with
      | none => exact .error (by simp)
      | some buffer =>
        cases sendfile with
        | some fn =>
          simp only
          split_ifs
          · exact .error (by simp)
          · exact .ok trivial
        | none =>
          cases hload with
          | error he =>
            simp only
            split_ifs
            · exact .error (by simp)
            · exact .error he
            · exact .ok trivial
          | ok _ =>
            simp only
            split_ifs
            · exact .error (by simp)
            all_goals exact .ok trivial
  · exact .ok trivial

/-- A client comes to an end, as each of its three calls does.  So there is no
other outcome than a result or a fault, whatever the server answers. -/
theorem clientRun_settles (files : Bytes → Option Bytes) (env : RecvEnv) (calls : List RequestCall)
    (conn : Option HttpConnection) : Settles (fun _ => True) (clientRun files env calls conn) := by
  cases conn with
  | none => exact .ok trivial
  | some conn =>
    have hsend := httpSendRequest_settles files conn (buildRequest calls)
    rw [clientRun]
    generalize httpSendRequest files conn (buildRequest calls) = sent at hsend
    cases hsend with
    | error he => exact .error he
    | @ok r _ =>
      obtain ⟨ret, conn', ct⟩ := r
      have hrecv := httpRecvResponse_settles env conn'
      simp only
      generalize httpRecvResponse env conn' = received at hrecv
      cases hrecv with
      | error he => exact .error he
      | ok _ => exact .ok trivial

namespace Blocks

open Lib (SameOutcome)
open Lib.Effects (Ends ends_pure)
open Sys (Alloc Allocator Heap Owns httpMalloc httpFree MEMORY_LEN)

/-- `sizeof(http_connection_t)`, which is also that of `httpd_server_t`, and
`sizeof(socket_t)`. -/
def CONNECTION_SIZE : ℤ := 40
def SOCKET_SIZE : ℤ := 4

/-- The blocks of a connection or a server are freed. -/
def freeParts (host : Str) (handle p : ℕ) : Alloc PUnit := do
  httpFree host.p
  httpFree handle
  httpFree p

/-- `http_connection_t` with its blocks. -/
structure ConnectionT where
  p : ℕ
  host : Str
  handle : ℕ
  port : ℤ
  socket : Socket

/-- The connection without its addresses. -/
def ConnectionT.toConnection (c : ConnectionT) : HttpConnection := ⟨c.host.bytes, c.port, c.socket⟩

/-- The blocks of a connection. -/
def ConnectionT.blocks (c : ConnectionT) : Sys.Blocks :=
  Sys.block c.p CONNECTION_SIZE + c.host.block + Sys.block c.handle SOCKET_SIZE

/-- The blocks of what `httpd_accept` returns. -/
def acceptedBlocks : Option ConnectionT → Sys.Blocks
  | none => 0
  | some c => c.blocks

/-- `httpd_accept`, where `socket_accept` answers `peer`. -/
def httpdAccept (A : Allocator) (peer : Option Peer) : Alloc (Option ConnectionT) := do
  let p ← httpMalloc A CONNECTION_SIZE
  let handle ← httpMalloc A SOCKET_SIZE
  match peer with
  | none => do
    -- `conn->host` is `NULL`
    httpFree 0
    httpFree handle
    httpFree p
    return none
  | some peer => do
    let host ← httpStrdup A (dotted peer.ip)
    return some ⟨p, host, handle, peer.port, peer.socket⟩

/-- `httpd_close`. -/
def httpdClose (c : ConnectionT) : Alloc PUnit := freeParts c.host c.handle c.p

/-- What the operating system answers to `httpd_create`. -/
inductive Listening
  | noSocket
  | bindFails
  | listenFails
  | listening
  deriving DecidableEq, Repr

/-- `httpd_server_t` with its blocks. -/
structure ServerT where
  p : ℕ
  host : Str
  handle : ℕ
  port : ℤ
  deriving DecidableEq, Repr

/-- The blocks of what `httpd_create` returns. -/
def createdBlocks : Option ServerT → Sys.Blocks
  | none => 0
  | some srv => Sys.block srv.p CONNECTION_SIZE + srv.host.block + Sys.block srv.handle SOCKET_SIZE

/-- `httpd_create`. -/
def httpdCreate (A : Allocator) (host ip : Option Bytes) (port : ℤ) (answer : Listening) :
    Alloc (Option ServerT) := do
  let p ← httpMalloc A CONNECTION_SIZE
  let name ← httpStrdup A (host.getD (ip.getD (ascii "0.0.0.0")))
  let handle ← httpMalloc A SOCKET_SIZE
  match answer with
  | .listening => return some ⟨p, name, handle, port⟩
  | _ => do
    freeParts name handle p
    return none

/-- `httpd_destroy`. -/
def httpdDestroy (srv : ServerT) : Alloc PUnit := freeParts srv.host srv.handle srv.p

/-- What `http_connect` leaves behind: the copy of the host, if there is no
socket. -/
def LeftOver (answer : Connecting) (name : Bytes) (L : Sys.Blocks) : Prop :=
  match answer with
  | .noSocket => ∃ s : Str, s.bytes = cstr name ∧ L = s.block
  | _ => L = 0

/-- `http_connect` with an address that is not `NULL`. -/
def httpConnect (A : Allocator) (host : Option Bytes) (ip : Bytes) (port : ℤ)
    (answer : Connecting) : Alloc (Option ConnectionT) := do
  let p ← httpMalloc A CONNECTION_SIZE
  let name ← httpStrdup A (host.getD ip)
  let handle ← httpMalloc A SOCKET_SIZE
  match answer with
  | .noSocket => do
    -- `conn->host` is not freed
    httpFree handle
    httpFree p
    return none
  | .refused => do
    freeParts name handle p
    return none
  | .connected socket => return some ⟨p, name, handle, port, socket⟩

/-- `http_close`. -/
def httpClose (c : ConnectionT) : Alloc PUnit := freeParts c.host c.handle c.p

/-- What a client receives is deleted. -/
def deleteReceived (r : ReceivedT) : Alloc PUnit :=
  match r.content with
  | none => return ⟨⟩
  | some ct => httpContentDelete ct

/-- A client that sends the request the calls build and receives the response. -/
def clientRun (A : Allocator) (files : Bytes → Option Bytes) (env : RecvEnv)
    (host : Option Bytes) (ip : Bytes) (port : ℤ) (answer : Connecting)
    (calls : List RequestCall) : Alloc (Except Fault (Option Received)) := do
  match ← httpConnect A host ip port answer with
  | none => return .ok none
  | some c => do
    let req ← buildRequest A calls
    match ← httpSendRequest A files c.toConnection req with
    | .error e => return .error e
    | .ok (_, conn, req) => do
      httpContentDelete req
      match ← httpRecvResponse A env conn with
      | .error e => return .error e
      | .ok res => do
        deleteReceived res
        httpClose c
        return .ok (some res.toReceived)

section Connection

variable {A : Allocator} {h : Heap} {M : Sys.Blocks} {c : ConnectionT}

/-- `http_free(NULL)` does nothing. -/
theorem httpFree_null_ends (ho : Owns h M) : Ends (httpFree 0) h fun _ t => Owns t M := by
  refine Lib.Effects.ends_of_exec (@Sys.ledgerCall_ok h _ h.map ?_) ho
  rw [Sys.Call.ledger, Sys.httpFree_, if_pos rfl]

/-- **An accepted connection owns three blocks**, and none is left of one that
failed. -/
theorem httpdAccept_ends (ho : Owns h M) (hroom : M.card + 3 ≤ MEMORY_LEN) (peer : Option Peer) :
    Ends (httpdAccept A peer) h fun c t => Owns t (acceptedBlocks c + M) ∧
      c.map ConnectionT.toConnection = peer.map Peer.toConnection := by
  refine (Sys.httpMalloc_ends ho (by omega) CONNECTION_SIZE).seq fun p t hp => ?_
  refine (Sys.httpMalloc_ends hp (by rw [Multiset.card_add, Sys.card_block]; omega)
    SOCKET_SIZE).seq fun handle t hhandle => ?_
  cases peer with
  | none =>
    refine (httpFree_null_ends hhandle).seq fun _ t ht => ?_
    refine (Sys.httpFree_ends ht).seq fun _ t ht => ?_
    exact (Sys.httpFree_ends ht).seq fun _ t ht => ends_pure ⟨ht.of_eq (zero_add M).symm, rfl⟩
  | some peer =>
    refine (httpStrdup_ends hhandle (by
      simp only [Multiset.card_add, Sys.card_block]; omega) (dotted peer.ip)).seq ?_
    rintro host t ⟨ht, hbytes⟩
    refine ends_pure ⟨ht.of_eq ?_, ?_⟩
    · rw [acceptedBlocks, ConnectionT.blocks]
      abel
    · rw [Option.map_some, Option.map_some, ConnectionT.toConnection, hbytes, cstr_dotted]
      rfl

/-- A connection or a server is freed part by part.  Both have the same three
blocks: the host, the handle and the record itself. -/
theorem freeParts_ends {host : Str} {handle p : ℕ} (ho : Owns h
    (Sys.block p CONNECTION_SIZE + host.block + Sys.block handle SOCKET_SIZE + M)) :
    Ends (freeParts host handle p) h fun _ t => Owns t M := by
  rw [show Sys.block p CONNECTION_SIZE + host.block + Sys.block handle SOCKET_SIZE + M =
    host.block + (Sys.block handle SOCKET_SIZE + (Sys.block p CONNECTION_SIZE + M)) by abel] at ho
  exact (Sys.httpFree_ends ho).seq fun _ _ h₁ => (Sys.httpFree_ends h₁).seq fun _ _ h₂ =>
    Sys.httpFree_ends h₂

/-- `httpd_close` gives back what the connection owns. -/
theorem httpdClose_ends (ho : Owns h (c.blocks + M)) :
    Ends (httpdClose c) h fun _ t => Owns t M := freeParts_ends ho

/-- **A server owns three blocks**, and none is left of one that could not be
created: each way out frees what was taken before it. -/
theorem httpdCreate_ends (ho : Owns h M) (hroom : M.card + 3 ≤ MEMORY_LEN)
    (host ip : Option Bytes) (port : ℤ) (answer : Listening) :
    Ends (httpdCreate A host ip port answer) h fun srv t =>
      Owns t (createdBlocks srv + M) ∧ (srv.isSome ↔ answer = .listening) := by
  refine (Sys.httpMalloc_ends ho (by omega) CONNECTION_SIZE).seq fun p t hp => ?_
  refine (httpStrdup_ends hp (by rw [Multiset.card_add, Sys.card_block]; omega) _).seq ?_
  rintro name t ⟨hname, -⟩
  refine (Sys.httpMalloc_ends hname (by
    simp only [Str.block, Multiset.card_add, Sys.card_block]; omega) SOCKET_SIZE).seq
    fun handle t ht => ?_
  rw [show Sys.block handle SOCKET_SIZE + (name.block + (Sys.block p CONNECTION_SIZE + M)) =
    Sys.block p CONNECTION_SIZE + name.block + Sys.block handle SOCKET_SIZE + M by abel] at ht
  have hfail : answer ≠ .listening → Ends (freeParts name handle p >>= fun _ => pure none) t
      fun srv t => Owns t (createdBlocks srv + M) ∧ (srv.isSome ↔ answer = .listening) :=
    fun hne => (freeParts_ends ht).seq fun _ t ht =>
      ends_pure ⟨ht.of_eq (zero_add M).symm, iff_of_false (by simp) hne⟩
  cases answer with
  | listening => exact ends_pure ⟨ht, iff_of_true rfl rfl⟩
  | noSocket => exact hfail (by simp)
  | bindFails => exact hfail (by simp)
  | listenFails => exact hfail (by simp)

/-- `httpd_destroy` gives back what the server owns. -/
theorem httpdDestroy_ends {srv : ServerT} (ho : Owns h (createdBlocks (some srv) + M)) :
    Ends (httpdDestroy srv) h fun _ t => Owns t M := freeParts_ends ho

/-- **`http_connect` frees what it does not return**, or leaves the copy of the
host behind, where `socket_create` fails. -/
theorem httpConnect_ends (ho : Owns h M) (hroom : M.card + 3 ≤ MEMORY_LEN)
    (host : Option Bytes) (ip : Bytes) (port : ℤ) (answer : Connecting) :
    Ends (httpConnect A host ip port answer) h fun c t =>
      c.map ConnectionT.toConnection = answer.connection (host.getD ip) port ∧
        ∃ L, LeftOver answer (host.getD ip) L ∧ Owns t (acceptedBlocks c + (L + M)) := by
  refine (Sys.httpMalloc_ends ho (by omega) CONNECTION_SIZE).seq fun p t hp => ?_
  refine (httpStrdup_ends hp (by rw [Multiset.card_add, Sys.card_block]; omega) _).seq ?_
  rintro name t ⟨hname, hbytes⟩
  refine (Sys.httpMalloc_ends hname (by
    simp only [Str.block, Multiset.card_add, Sys.card_block]; omega) SOCKET_SIZE).seq
    fun handle t ht => ?_
  cases answer with
  | noSocket =>
    rw [show name.block + (Sys.block p CONNECTION_SIZE + M) =
      Sys.block p CONNECTION_SIZE + (name.block + M) by abel] at ht
    refine (Sys.httpFree_ends ht).seq fun _ t ht => (Sys.httpFree_ends ht).seq fun _ t ht => ?_
    exact ends_pure ⟨rfl, name.block, ⟨name, hbytes, rfl⟩, ht.of_eq (zero_add _).symm⟩
  | refused =>
    rw [show Sys.block handle SOCKET_SIZE + (name.block + (Sys.block p CONNECTION_SIZE + M)) =
      Sys.block p CONNECTION_SIZE + name.block + Sys.block handle SOCKET_SIZE + M by abel] at ht
    refine (freeParts_ends ht).seq fun _ t ht => ends_pure ⟨rfl, 0, rfl, ht.of_eq ?_⟩
    rw [zero_add]
    exact (zero_add M).symm
  | connected socket =>
    refine ends_pure ⟨?_, 0, rfl, ht.of_eq ?_⟩
    · rw [Option.map_some, ConnectionT.toConnection, hbytes]
      rfl
    · rw [acceptedBlocks, ConnectionT.blocks, zero_add]
      abel

/-- What was received is deleted, if it was received. -/
theorem deleteReceived_ends {r : ReceivedT} (ho : Owns h (r.blocks + M)) :
    Ends (deleteReceived r) h fun _ t => Owns t M := by
  obtain ⟨content, conn, tmpfile⟩ := r
  cases content with
  | none => exact ends_pure (ho.of_eq (zero_add M))
  | some ct => exact httpContentDelete_ends ho

/-- The client gives back what it has taken, and does what it does without the
addresses.  Its request is deleted before the response is received, and the
connection is closed whatever `http_recv_response` returns. -/
theorem clientRun_ends (A : Allocator) (files : Bytes → Option Bytes) (env : RecvEnv)
    {calls : List RequestCall} (host : Option Bytes) (ip : Bytes) (port : ℤ) (answer : Connecting)
    (ho : Owns h M) (hcalls : M.card + (20 + 12 * calls.length) ≤ MEMORY_LEN)
    (hroom : M.card + (3 + RECV_BLOCKS) ≤ MEMORY_LEN) :
    Ends (clientRun A files env host ip port answer calls) h fun r t =>
      SameOutcome (fun p q => q = p ∧ ∃ L, LeftOver answer (host.getD ip) L ∧ Owns t (L + M))
        (Http.clientRun files env calls (answer.connection (host.getD ip) port)) r := by
  refine (httpConnect_ends ho (by omega) host ip port answer).seq ?_
  rintro c t ⟨hc, L, hL, ht⟩
  rw [← hc]
  cases c with
  | none => exact ends_pure (.ok ⟨rfl, L, hL, ht.of_eq (zero_add _)⟩)
  | some c =>
    obtain rfl : L = 0 := by
      cases answer with
      | connected socket => exact hL
      | noSocket => cases hc
      | refused => cases hc
    have hthree : (acceptedBlocks (some c) + (0 + M)).card = 3 + M.card := by
      simp only [acceptedBlocks, ConnectionT.blocks, Str.block, Multiset.card_add, Sys.card_block,
        Multiset.card_zero, Nat.zero_add]
    refine (buildRequest_ends ht calls (by omega)).seq ?_
    rintro req t ⟨hreq, hcard, hsame⟩
    refine (httpSendRequest_ends hreq (by rw [Multiset.card_add]; omega) c.toConnection).seq
      fun sent t hsent => ?_
    rw [hsame] at hsent
    rw [Option.map_some, Http.clientRun]
    generalize Http.httpSendRequest files c.toConnection _ = p at hsent
    cases hsent with
    | error e => exact ends_pure (.error e)
    | @ok p sent hsent =>
      obtain ⟨-, hconn, hct⟩ := hsent
      obtain ⟨ret, conn, ct⟩ := p
      obtain ⟨ret', conn', ct'⟩ := sent
      obtain rfl := hconn
      refine (httpContentDelete_ends hct.owns).seq fun _ t ht => ?_
      refine (httpRecvResponse_ends ht (by omega)).seq fun res t hres => ?_
      simp only
      generalize Http.httpRecvResponse env conn' = q at hres
      cases hres with
      | error e => exact ends_pure (.error e)
      | ok hreceived =>
        obtain ⟨rfl, howns, -⟩ := hreceived
        refine (deleteReceived_ends howns).seq fun _ t ht => ?_
        exact (httpdClose_ends ht).seq fun _ t ht => ends_pure (.ok ⟨rfl, 0, hL, ht⟩)

/-- A server that answers without a body. -/
def noContent : Connecting := .connected ⟨[ascii "HTTP/1.1 204 No Content\r\n\r\n"], [], []⟩

end Connection

end Blocks
end Http
end Dukserver
