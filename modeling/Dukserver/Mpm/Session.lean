/-
# A client and its frontend

`libhttpd/http_mpm.c`, `_worker_frontend` (lines 142-205), at one end of a connection,
and at the other a client that sends a request with `http_send_request` and receives
the response with `http_recv_response`, again and again (`test/simple_client.c`).  What
the network does to the bytes of a message is a `Cutting` of them into pieces.

The client waits for the response, so no piece holds bytes of two messages, and both
sides take exactly one message from the connection in each exchange.  Each request thus
reaches `process_cb`, and each response the client, as it was built, for any number of
exchanges (`exchanges_delivered`).  A request that asks for `100-continue` breaks this:
the client takes the interim answer for the response (`exchange_expect`).
-/

import Dukserver.Http.Exchange
import Dukserver.Mpm.Frontend
import Mathlib.Data.List.Forall2

namespace Dukserver
namespace Mpm

open Lib (Bytes ascii atoi delivered after)
open Http

/-- How the network cuts what is sent into the pieces that are received; the
first one is not shorter than three bytes, unless everything is. -/
structure Cutting where
  cut : Bytes → List Bytes
  flatten : ∀ s, (cut s).flatten = s
  nonempty : ∀ s, ∀ c ∈ cut s, c ≠ []
  first : ∀ s c, 3 ≤ s.length → (cut s).head? = some c → 3 ≤ c.length

/-- One piece. -/
def Cutting.whole : Cutting where
  cut s := if s = [] then [] else [s]
  flatten s := by
    split_ifs with h
    · rw [h]
      rfl
    · simp
  nonempty s c hc := by
    split_ifs at hc with h
    · cases hc
    · rwa [List.mem_singleton.1 hc]
  first s c h hc := by
    split_ifs at hc with hnil
    · cases hc
    · obtain rfl : s = c := Option.some.inj hc
      exact h

/-- The bytes arrive behind those that have not been received yet. -/
def arrive (w : Cutting) (s : Bytes) (conn : HttpConnection) : HttpConnection :=
  { conn with handle := { conn.handle with incoming := conn.handle.incoming ++ w.cut s } }

/-- What was sent over the connection between two states of it. -/
def sentSince (before now : HttpConnection) : Bytes :=
  now.handle.sent.drop before.handle.sent.length

/-- The response that the frontend makes when it has none. -/
def fastcgiError (date : Bytes) : List ResponseCall :=
  [.start (date, 500), .write (ascii "Fastcgi Error")]

/-- `!fastcgi_break` at the end of a round. -/
def keepAlive {α : Type} (res : Option α) (req : HttpContent) : Bool :=
  res.isSome && httpMapGet req.dict HTTP_VERSION != some (ascii "HTTP/1.0")

/-- A round of `_worker_frontend`: what was received, the connection, and
whether the loop goes on.  `process` builds what `process_cb` returns, `none`
being `NULL`, or that the mutex or the event failed. -/
def frontendRound (env : RecvEnv) (date : Bytes)
    (process : HttpContent → Option (List ResponseCall)) (conn : HttpConnection) :
    Except Fault (Received × HttpConnection × Bool) :=
  match httpRecvRequest env conn with
  | .error e => .error e
  | .ok r =>
    match r.content with
    | none => .ok (r, r.conn, false)
    | some ct =>
      let req := prepareRequest r.conn ct
      let res := process req
      match httpSendResponse r.conn (buildResponse (res.getD (fastcgiError date))) with
      | .error e => .error e
      | .ok (_, conn, _) =>
        .ok (r, conn, keepAlive res req)

/-- Both ends of a connection, and whether the frontend is in its loop. -/
structure Session where
  client : HttpConnection
  server : HttpConnection
  alive : Bool
  deriving DecidableEq, Repr

/-- What the two programs and the outside do in an exchange. -/
structure Turn where
  calls : List RequestCall
  process : HttpContent → Option (List ResponseCall)
  date : Bytes
  toServer : Cutting
  toClient : Cutting
  serverEnv : RecvEnv
  clientEnv : RecvEnv

/-- A request and its response: the two ends, and what each of them has
received. -/
def exchange (files : Bytes → Option Bytes) (s : Session) (t : Turn) :
    Except Fault (Session × Received × Received) :=
  match httpSendRequest files s.client (buildRequest t.calls) with
  | .error e => .error e
  | .ok (_, client, _) =>
    match frontendRound t.serverEnv t.date t.process
      (arrive t.toServer (sentSince s.client client) s.server) with
    | .error e => .error e
    | .ok (req, server, alive) =>
      match httpRecvResponse t.clientEnv
        (arrive t.toClient (sentSince s.server server) client) with
      | .error e => .error e
      | .ok res => .ok (⟨res.conn, server, alive⟩, req, res)

/-- Exchanges, until the frontend closes the connection. -/
def exchanges (files : Bytes → Option Bytes) :
    Session → List Turn → Except Fault (Session × List (Received × Received))
  | s, [] => .ok (s, [])
  | s, t :: ts =>
    match exchange files s t with
    | .error e => .error e
    | .ok (s, p) =>
      if s.alive then
        match exchanges files s ts with
        | .error e => .error e
        | .ok (s, ps) => .ok (s, p :: ps)
      else .ok (s, [p])

/-- Nothing is on its way, and the sockets accept what they are given. -/
structure Session.Idle (s : Session) : Prop where
  client : s.client.handle.incoming = []
  server : s.server.handle.incoming = []
  clientEager : s.client.handle.Eager
  serverEager : s.server.handle.Eager

/-- The request and the response can be read, and there is a temporary file for
a body that does not fit the buffers. -/
structure Turn.Readable (files : Bytes → Option Bytes) (client : HttpConnection) (t : Turn) :
    Prop where
  request : RequestOk files client t.calls
  response : ∀ req, ResponseOk ((t.process req).getD (fastcgiError t.date))
  serverFile : HTTP_MAX_BUFFER_SIZE < (written t.calls).length → t.serverEnv.fopenOk = true
  clientFile : ∀ req, HTTP_MAX_BUFFER_SIZE <
    (written ((t.process req).getD (fastcgiError t.date))).length → t.clientEnv.fopenOk = true

/-- The client asks for an interim answer. -/
def Turn.Expects (t : Turn) : Prop :=
  httpMapGet (buildRequest t.calls).dict (ascii "Expect") = some (ascii "100-continue")

instance (t : Turn) : Decidable t.Expects := inferInstanceAs (Decidable (_ = _))

/-- The server has received the request that the client built. -/
def RequestDone (files : Bytes → Option Bytes) (client : HttpConnection) (t : Turn)
    (req : Received) : Prop :=
  ∃ entries, RequestEntries files client t.calls entries ∧
    req.Holds t.serverEnv entries (written t.calls)

/-- The client has received the response that the server built for what it
received. -/
def ResponseDone (t : Turn) (req res : Received) : Prop :=
  ∃ ct entries body, req.content = some ct ∧
    ResponseIs ((t.process (prepareRequest req.conn ct)).getD (fastcgiError t.date)) entries body ∧
    res.Holds t.clientEnv entries body

section Arrive

variable {w : Cutting} {conn : HttpConnection} {s : Bytes}

/-- What arrives on a connection with nothing left over is the message. -/
theorem delivered_arrive (h : conn.handle.incoming = []) :
    delivered (arrive w s conn).handle.incoming = s := by
  rw [arrive, h, List.nil_append, Lib.delivered_eq_flatten (w.nonempty s), w.flatten]

/-- Its first piece is long enough for the scan, as the cutting says. -/
theorem firstChunkOk_arrive (h : conn.handle.incoming = []) (hs : 3 ≤ s.length) :
    FirstChunkOk (arrive w s conn).handle.incoming := by
  rw [arrive, h, List.nil_append]
  exact fun c hc => .inr (w.first s c hs hc)

/-- Once the length of the message is taken, nothing is left over. -/
theorem after_arrive (h : conn.handle.incoming = []) :
    after s.length (arrive w s conn).handle.incoming = [] := by
  have hall := @Lib.after_append _ (w.cut s) [] (w.nonempty s)
  rw [w.flatten, List.append_nil] at hall
  rwa [arrive, h, List.nil_append]

/-- What a message adds to what was sent. -/
theorem sentSince_message {before now : HttpConnection} {s : Bytes}
    (h : now.handle.sent = before.handle.sent ++ s) : sentSince before now = s := by
  rw [sentSince, h, List.drop_left]

end Arrive

section Round

variable {files : Bytes → Option Bytes} {s : Session} {t : Turn}

/-- What is expected is what the client said, for each header that sending does
not set. -/
theorem httpMapGet_requestEntries {conn : HttpConnection} {calls : List RequestCall}
    {entries : List (Bytes × Option Bytes)} (h : RequestEntries files conn calls entries)
    {k : Bytes} (hint : ¬Internal (Lib.cstr k)) (hurl : Lib.cstr k ≠ HTTP_URL)
    (hhost : Lib.cstr k ≠ ascii "Host") (hlength : Lib.cstr k ≠ ascii "Content-Length") (c : ℕ) :
    httpMapGet ⟨c, entries⟩ k = httpMapGet (buildRequest calls).dict k := by
  obtain ⟨ct, method, url, hprepared, -, -, -, rfl⟩ := h
  rw [httpMapGet_entries lineEntries_internal _ hint]
  rw [preparedRequest] at hprepared
  split at hprepared
  · cases hprepared
  · split at hprepared
    · cases hprepared
    · rename_i hpre
      obtain rfl := Option.some.inj hprepared
      rw [httpMapGet_announceLength hlength, httpMapGet_preprocess hpre hurl hhost]

/-- The interim answer depends on one header, which arrives as it was set.  So
the server sends it exactly if the client has asked for it. -/
theorem expectContinue_congr {m m' : HttpMap} (w : Cutting) (b : Bytes) (conn : HttpConnection)
    (n : ℕ) (h : httpMapGet m (ascii "Expect") = httpMapGet m' (ascii "Expect")) :
    (expectContinue m (arrive w b conn)).after n = { expectContinue m' conn with
      handle := { (expectContinue m' conn).handle with
        incoming := after n (arrive w b conn).handle.incoming } } := by
  rw [expectContinue, expectContinue, h]
  cases httpMapGet m' (ascii "Expect") with
  | none => rfl
  | some v =>
    simp only
    split_ifs <;> rfl

/-- **The client sends the request and the frontend receives it**, and nothing
else is left on the connection than the interim answer, if the client asks for
one. -/
theorem exchange_request (h : s.Idle) (hrequest : RequestOk files s.client t.calls)
    (hopen : HTTP_MAX_BUFFER_SIZE < (written t.calls).length → t.serverEnv.fopenOk = true) :
    ∃ ret ct client r, httpSendRequest files s.client (buildRequest t.calls) =
        .ok (ret, client, ct) ∧
      client.host = s.client.host ∧ client.handle.incoming = [] ∧ client.handle.Eager ∧
      httpRecvRequest t.serverEnv (arrive t.toServer (sentSince s.client client) s.server) =
        .ok r ∧
      RequestDone files s.client t r ∧
      r.conn = { expectContinue (buildRequest t.calls).dict s.server with
        handle := { (expectContinue (buildRequest t.calls).dict s.server).handle with
          incoming := [] } } := by
  obtain ⟨head, entries, hentries, hmessage, hsend⟩ := hrequest.sent
  obtain ⟨ret, ct, hsend⟩ := hsend s.client.handle
  have hfits := hmessage.readable.fits
  have hfour := hmessage.readable.four
  have hblock : HTTP_MAX_BUFFER_SIZE ≤ HTTP_MAX_SEND_BLOCK := by decide
  have hsent := h.clientEager.sent_message (show head.length ≤ HTTP_MAX_SEND_BLOCK by omega)
    (written t.calls)
  refine ⟨ret, ct, ⟨s.client.host, s.client.port, socketSends s.client.handle
    (head :: sendBlocks (written t.calls).length (written t.calls))⟩, ?_⟩
  rw [sentSince_message hsent]
  obtain ⟨r, hrecv, hholds, hconn⟩ := httpRecvRequest_holds t.serverEnv hmessage.readable
    (firstChunkOk_arrive (w := t.toServer) (s := head ++ written t.calls) h.server
      (by rw [List.length_append]; omega))
    (delivered_arrive h.server) hmessage.announced hmessage.size hopen hmessage.tmpfile
  refine ⟨r, hsend, rfl, by simp [h.client], h.clientEager.sends _, hrecv,
    ⟨entries, hentries, hholds⟩, ?_⟩
  rw [hconn, ← List.length_append, expectContinue_congr _ _ _ _ (httpMapGet_requestEntries hentries
    (by decide) (by decide) (by decide) (by decide) 0), after_arrive h.server]

/-- The client that has sent its request receives the response: it waits for it,
so its first receive begins there. -/
theorem exchange_response {client : HttpConnection} {calls : List ResponseCall} (env : RecvEnv)
    (server : HttpConnection) (w : Cutting) (hcalls : ResponseOk calls)
    (hclient : client.handle.incoming = []) (hserver : server.handle.Eager)
    (hopen : HTTP_MAX_BUFFER_SIZE < (written calls).length → env.fopenOk = true) :
    ∃ ret ct server' res entries body, httpSendResponse server (buildResponse calls) =
        .ok (ret, server', ct) ∧ server'.host = server.host ∧ server'.port = server.port ∧
      server'.handle.incoming = server.handle.incoming ∧ server'.handle.Eager ∧
      httpRecvResponse env (arrive w (sentSince server server') client) = .ok res ∧
      ResponseIs calls entries body ∧ res.Holds env entries body ∧
      res.conn = { client with handle := { client.handle with incoming := [] } } := by
  obtain ⟨head, entries, body, his, hmessage, hsend⟩ := hcalls.sent
  obtain ⟨ret, ct, hsend⟩ := hsend server
  have hfits := hmessage.readable.fits
  have hfour := hmessage.readable.four
  have hblock : HTTP_MAX_BUFFER_SIZE ≤ HTTP_MAX_SEND_BLOCK := by decide
  have hsent := hserver.sent_message (show head.length ≤ HTTP_MAX_SEND_BLOCK by omega) body
  have hlarge : HTTP_MAX_BUFFER_SIZE < body.length → env.fopenOk = true := by
    obtain ⟨status, -, -, rfl⟩ := his
    rw [sentBody]
    split_ifs
    · intro hlt
      exact absurd hlt (by decide)
    · exact hopen
  refine ⟨ret, ct, ⟨server.host, server.port, socketSends server.handle
    (head :: sendBlocks body.length body)⟩, ?_⟩
  rw [sentSince_message hsent]
  obtain ⟨res, hrecv, hholds, hconn⟩ := httpRecvResponse_holds env hmessage.readable
    (firstChunkOk_arrive (w := w) (s := head ++ body) hclient
      (by rw [List.length_append]; omega))
    (delivered_arrive hclient) hmessage.announced hmessage.size hlarge hmessage.tmpfile
  refine ⟨res, entries, body, hsend, rfl, rfl, by simp, hserver.sends _, hrecv, his, hholds, ?_⟩
  rw [hconn, HttpConnection.after, ← List.length_append, after_arrive hclient]
  rfl

/-- A received request has the version that `http_start_request` sets.  The
connection information that is added has other names. -/
theorem version_prepareRequest {conn server : HttpConnection} {req : Received} {ct : HttpContent}
    (h : RequestDone files conn t req) (hct : req.content = some ct) :
    httpMapGet (prepareRequest server ct).dict HTTP_VERSION = some (ascii "HTTP/1.1") := by
  obtain ⟨entries, ⟨_, method, url, -, -, -, -, rfl⟩, ct', hct', -, hholds⟩ := h
  obtain rfl := Option.some.inj (hct.symm.trans hct')
  have hvalues : ∃ rest, ct.dict.values = lineEntries method url (ascii "HTTP/1.1") ++ rest := by
    split_ifs at hholds
    · exact ⟨_, hholds.1⟩
    · exact ⟨_, hholds.1.trans (List.append_assoc ..)⟩
  obtain ⟨rest, hvalues⟩ := hvalues
  rw [httpMapGet_of_sameInternal (prepareRequest_internal server ct) (by decide), httpMapGet,
    hvalues]
  rfl

/-- Of the client only the host matters. -/
theorem Turn.Readable.congr {conn conn' : HttpConnection} (h : t.Readable files conn)
    (hhost : conn.host = conn'.host) : t.Readable files conn' :=
  { h with request := h.request.congr hhost }

/-- So a request is received from every client with that host alike. -/
theorem RequestDone.congr {conn conn' : HttpConnection} {req : Received}
    (h : RequestDone files conn t req) (hhost : conn.host = conn'.host) :
    RequestDone files conn' t req := by
  obtain ⟨entries, ⟨ct, method, url, hprepared, hrest⟩, hholds⟩ := h
  rw [preparedRequest_congr hhost] at hprepared
  exact ⟨entries, ⟨ct, method, url, hprepared, hrest⟩, hholds⟩

/-- **An exchange delivers its request and its response**, and leaves the
connection as it was. -/
theorem exchange_delivered (h : s.Idle) (ht : t.Readable files s.client) (hexp : ¬t.Expects) :
    ∃ s' req res, exchange files s t = .ok (s', req, res) ∧ s'.Idle ∧
      s'.client.host = s.client.host ∧ RequestDone files s.client t req ∧
      ResponseDone t req res ∧ ((∀ r, (t.process r).isSome) → s'.alive = true) := by
  obtain ⟨ret, ct, client, req, hsend, hhost, hin, heager, hrecv, hreq, hconn⟩ :=
    exchange_request h ht.request ht.serverFile
  have hno : expectContinue (buildRequest t.calls).dict s.server = s.server := by
    rw [expectContinue]
    split
    · rfl
    · rename_i v hv
      exact if_neg fun he => hexp (by rw [Turn.Expects, hv, he])
  rw [hno] at hconn
  obtain ⟨-, -, cont, hcont, -⟩ := id hreq
  obtain ⟨ret', ct', server, res, entries, body, hsend', -, -, hin', heager', hrecv', his, hres,
    hconn'⟩ := exchange_response t.clientEnv req.conn t.toClient
      (ht.response (prepareRequest req.conn cont)) hin (by rw [hconn]; exact h.serverEager)
      (ht.clientFile _)
  have hsince : sentSince s.server server = sentSince req.conn server := by
    rw [sentSince, sentSince, hconn]
  refine ⟨⟨res.conn, server, keepAlive (t.process (prepareRequest req.conn cont))
    (prepareRequest req.conn cont)⟩, req, res, ?_, ⟨?_, ?_, ?_, heager'⟩, ?_, hreq,
    ⟨cont, entries, body, hcont, his, hres⟩, fun hsome => ?_⟩
  · rw [exchange, hsend]
    simp only [frontendRound, hrecv, hcont, hsend', hsince, hrecv']
  · rw [hconn']
  · rw [hin', hconn]
  · rw [hconn']
    exact heager
  · rw [hconn']
    exact hhost
  · simp [keepAlive, hsome, version_prepareRequest hreq hcont]
    decide

/-- **What the client and the server say to each other arrives as it was said**,
for every number of exchanges, all their programs and every way in which the
network cuts the messages: the server receives each request with the method, the
URL and the headers it was built with, and the body that was written,
`process_cb` sees it, and the client receives the response that was built for
it.  A body that does not fit the buffers is in the temporary file.  The
frontend keeps the connection until `process_cb` returns `NULL`, and then
answers with status 500. -/
theorem exchanges_delivered {ts : List Turn} (h : s.Idle)
    (hts : ∀ t ∈ ts, t.Readable files s.client ∧ ¬t.Expects)
    (hprocess : ∀ t ∈ ts.dropLast, ∀ r, (t.process r).isSome) :
    ∃ s' ps, exchanges files s ts = .ok (s', ps) ∧ s'.Idle ∧
      List.Forall₂ (fun t p => RequestDone files s.client t p.1 ∧ ResponseDone t p.1 p.2)
        ts ps := by
  induction ts generalizing s with
  | nil => exact ⟨s, [], rfl, h, .nil⟩
  | cons t ts ih =>
    obtain ⟨ht, hexp⟩ := hts t (List.mem_cons_self ..)
    obtain ⟨s₁, req, res, hrun, hidle, hhost, hreq, hres, halive⟩ := exchange_delivered h ht hexp
    rw [exchanges, hrun]
    simp only
    by_cases hopen : s₁.alive = true
    · obtain ⟨s₂, ps, hrest, hidle₂, hall⟩ := ih hidle
        (fun u hu => ⟨(hts u (List.mem_cons_of_mem _ hu)).1.congr hhost.symm,
          (hts u (List.mem_cons_of_mem _ hu)).2⟩)
        (fun u hu => hprocess u (by
          rw [List.dropLast_cons_of_ne_nil (List.ne_nil_of_mem (List.mem_of_mem_dropLast hu))]
          exact List.mem_cons_of_mem _ hu))
      refine ⟨s₂, (req, res) :: ps, by rw [if_pos hopen, hrest], hidle₂, .cons ⟨hreq, hres⟩ ?_⟩
      exact hall.imp fun u p hp => ⟨hp.1.congr hhost, hp.2⟩
    · -- the frontend has closed the connection, so this was the last exchange
      have hnil : ts = [] := by
        by_contra hne
        refine hopen (halive (hprocess t ?_))
        rw [List.dropLast_cons_of_ne_nil hne]
        exact List.mem_cons_self ..
      subst hnil
      exact ⟨s₁, [(req, res)], by rw [if_neg hopen], hidle, .cons ⟨hreq, hres⟩ .nil⟩

/-- A client and a server on one machine. -/
def localSession : Session := ⟨localConn, ⟨ascii "127.0.0.1", 5000, ⟨[], [], []⟩⟩, true⟩

/-- At the start nothing is on the way. -/
theorem idle_localSession : localSession.Idle :=
  ⟨rfl, rfl, fun _ ha => absurd ha List.not_mem_nil, fun _ ha => absurd ha List.not_mem_nil⟩

/-- The page of the test can be sent. -/
theorem responseOk_cookiePage : ResponseOk cookiePage := by
  refine ⟨responseCallOk_cookiePage, ⟨_, _, List.mem_cons_self ..⟩, fun k v hmem => ?_, by decide,
    fun version status hversion hstatus => ?_⟩
  · simp only [cookiePage, List.mem_cons, reduceCtorEq, List.not_mem_nil, or_false, false_or,
      Call.header.injEq] at hmem
    rw [hmem.1]
    decide
  · obtain rfl : ascii "HTTP/1.1" = version := Option.some.inj hversion
    obtain rfl : ascii "200" = status := Option.some.inj hstatus
    decide +kernel

/-- A request with a body, and a page for it. -/
def greetingTurn : Turn where
  calls := greeting
  process _ := some cookiePage
  date := ascii "Fri, 01 Jan 2016 12:00:00 UTC"
  toServer := .whole
  toClient := .whole
  serverEnv := plainEnv
  clientEnv := plainEnv

/-- Its request meets the conditions: it has a start, and no header that sending
sets. -/
theorem readable_greetingTurn : greetingTurn.Readable (fun _ => none) localConn := by
  refine ⟨⟨requestCallOk_greeting, ⟨_, _, List.mem_cons_self ..⟩, by decide, fun k v hmem => ?_, ?_,
    by decide, fun ct head hct hhead => ?_⟩, fun _ => responseOk_cookiePage,
    fun hlt => absurd hlt (by decide),
    fun _ (hlt : HTTP_MAX_BUFFER_SIZE < (written cookiePage).length) => absurd hlt (by decide)⟩
  · simp only [greetingTurn, greeting, List.mem_cons, reduceCtorEq, List.not_mem_nil, or_false,
      false_or, Call.header.injEq] at hmem
    rw [hmem.1]
    decide
  · rw [← (body_buildRequest _).2]
    decide
  · obtain rfl := Option.some.inj hct
    obtain rfl := Option.some.inj hhead
    decide +kernel

/-- The hypotheses are satisfiable: two requests over one connection. -/
theorem exchanges_delivered_greeting : ∃ s' ps,
    exchanges (fun _ => none) localSession [greetingTurn, greetingTurn] = .ok (s', ps) ∧
      s'.Idle ∧ List.Forall₂ (fun t p => RequestDone (fun _ => none) localConn t p.1 ∧
        ResponseDone t p.1 p.2) [greetingTurn, greetingTurn] ps := by
  refine exchanges_delivered (s := localSession) idle_localSession (fun t ht => ?_) fun t _ r => ?_
  · obtain rfl : t = greetingTurn := by simpa using ht
    exact ⟨readable_greetingTurn, by decide⟩
  · obtain rfl : t = greetingTurn := by simp_all
    rfl

/-! ### The interim answer -/

/-- The interim answer is a header block without headers, which the client
parses like any other. -/
theorem readable_expect100 :
    Readable .response HTTP_DEFAULT_RESPONSE_EXPECT100 (statusEntries (ascii "100")) := by
  have hblock : headerBlock (ascii "HTTP/1.1") (Lib.sprintfD (100 : ℕ)) ⟨0, []⟩ =
      HTTP_DEFAULT_RESPONSE_EXPECT100 := by decide +kernel
  have hsend : Sendable ResponseEntry ⟨0, []⟩ :=
    ⟨List.nodup_nil, fun p hp => absurd hp List.not_mem_nil⟩
  refine ⟨by decide, ?_, fun rest c => ?_⟩
  · rw [← hblock]
    exact indexOf_headerBlock hsend
  · have hparse := httpParseResponse_of_sendable hsend rest c (n := 100)
    rw [hblock] at hparse
    exact hparse

/-- A response has headers, and the interim answer has none: that is how they
differ. -/
theorem headers_completeResponse_ne_nil {calls : List ResponseCall} (h : ResponseOk calls)
    (status : ℤ) : headers (completeResponse status (buildResponse calls)).dict ≠ [] := by
  have hserver : ascii "Server" ∈ (buildResponse calls).dict.keys := by
    obtain ⟨date, status, hmem⟩ := h.started
    refine build_of_mem (P := fun ct => ascii "Server" ∈ ct.dict.keys) hmem (fun ct => ?_)
      fun ct call hct => ?_
    · simp only [Call.apply, httpStartResponse, mem_keys_httpMapSet]
      exact .inr (.inl rfl)
    · rcases call with ⟨date, status⟩ | ⟨key, value⟩ | data
      · simp only [Call.apply, httpStartResponse, mem_keys_httpMapSet]
        exact .inr (.inl rfl)
      · exact mem_keys_httpMapSet.2 (.inr hct)
      · rw [Call.apply, httpWrite_dict]
        exact hct
  have hset : ascii "Server" ∈ (completeResponse status (buildResponse calls)).dict.keys := by
    rw [(completeResponse_eq (bodyWritten_buildResponse calls)).2]
    split_ifs
    · exact hserver
    · exact mem_keys_httpMapSet.2 (.inr hserver)
  obtain ⟨p, hp, hkey⟩ := List.mem_map.1 hset
  refine List.ne_nil_of_mem (List.mem_filter.2 ⟨hp, ?_⟩)
  rw [hkey]
  decide

/-- What the client receives of a stream that starts with the interim answer:
this answer, with the response as its body. -/
theorem httpRecvResponse_expect100 {conn : HttpConnection} (env : RecvEnv) (rest : Bytes)
    (w : Cutting) (hconn : conn.handle.incoming = []) :
    ∃ r ct bytes, httpRecvResponse env
        (arrive w (HTTP_DEFAULT_RESPONSE_EXPECT100 ++ rest) conn) = .ok r ∧
      r.content = some ct ∧ ct.dict.values = statusEntries (ascii "100") ∧
      ct.load ct.body = .ok bytes ∧ bytes ++ r.conn.handle.incoming.flatten = rest := by
  have hstream := delivered_arrive (w := w) (s := HTTP_DEFAULT_RESPONSE_EXPECT100 ++ rest) hconn
  have hlong : 3 ≤ HTTP_DEFAULT_RESPONSE_EXPECT100.length := by decide
  have hok := firstChunkOk_arrive (w := w) (s := HTTP_DEFAULT_RESPONSE_EXPECT100 ++ rest) hconn
    (by rw [List.length_append]; omega)
  have hall : (arrive w (HTTP_DEFAULT_RESPONSE_EXPECT100 ++ rest) conn).handle.incoming.flatten =
      HTTP_DEFAULT_RESPONSE_EXPECT100 ++ rest := by
    rw [arrive, hconn, List.nil_append, w.flatten]
  generalize arrive w (HTTP_DEFAULT_RESPONSE_EXPECT100 ++ rest) conn = c at hstream hok hall
  obtain ⟨dict, hd, hvalues⟩ := readable_expect100.exists_head hstream env
  have hbounds := hd.bounds
  have hlen := hd.length_received
  have hnone : ∀ v, httpMapGet dict (ascii "Content-Length") = some v → atoi v ≤ 0 := by
    intro v hv
    have hno : httpMapGet dict (ascii "Content-Length") = none := by
      rw [httpMapGet, hvalues]
      rfl
    rw [hno] at hv
    cases hv
  rw [httpRecvResponse_eq hok hd, recvBodyOf, httpRecvBody_of_none _ _ hnone]
  refine ⟨_, _, _, rfl, rfl, hvalues, load_body_parsed (by omega), ?_⟩
  have hrest := Lib.take_append_flatten_after
    (show (headerReceived c HTTP_DEFAULT_RESPONSE_EXPECT100.length).length ≤
      (delivered c.handle.incoming).length by omega)
  have htake : (delivered c.handle.incoming).take
      (headerReceived c HTTP_DEFAULT_RESPONSE_EXPECT100.length).length =
      headerReceived c HTTP_DEFAULT_RESPONSE_EXPECT100.length := by
    rw [hlen]
    rfl
  have hdrop := congrArg (List.drop HTTP_DEFAULT_RESPONSE_EXPECT100.length) (hrest.trans hall)
  rwa [htake, List.drop_append_of_le_length (by omega), List.drop_left] at hdrop

/-- **A client that asks for `100-continue` takes the interim answer for the
response**, for all programs and however the messages are cut.  The request is
received all the same, and the response of the server is in what the client has
for the body of the interim answer and in what is left on the connection for its
next receive. -/
theorem exchange_expect (h : s.Idle) (ht : t.Readable files s.client) (hexp : t.Expects) :
    ∃ s' req res, exchange files s t = .ok (s', req, res) ∧ RequestDone files s.client t req ∧
      ¬ResponseDone t req res ∧
      ∃ cont ct bytes head entries body, req.content = some cont ∧ res.content = some ct ∧
        ct.dict.values = statusEntries (ascii "100") ∧
        Message .response head entries body ∧
        ResponseIs ((t.process (prepareRequest req.conn cont)).getD (fastcgiError t.date))
          entries body ∧
        ct.load ct.body = .ok bytes ∧
        bytes ++ s'.client.handle.incoming.flatten = head ++ body := by
  obtain ⟨ret, ct, client, req, hsend, hhost, hin, heager, hrecv, hreq, hconn⟩ :=
    exchange_request h ht.request ht.serverFile
  have hinterim : expectContinue (buildRequest t.calls).dict s.server =
      (httpSendString s.server HTTP_DEFAULT_RESPONSE_EXPECT100).2 := by
    rw [expectContinue, hexp]
    exact if_pos rfl
  obtain ⟨-, -, cont, hcont, -⟩ := id hreq
  have hresponse := ht.response (prepareRequest req.conn cont)
  obtain ⟨head, entries, body, his, hmessage, hsend'⟩ := hresponse.sent
  obtain ⟨ret', ct', hsend'⟩ := hsend' req.conn
  have hfits := hmessage.readable.fits
  have hblock : HTTP_MAX_BUFFER_SIZE ≤ HTTP_MAX_SEND_BLOCK := by decide
  have hserver : req.conn.handle.Eager ∧
      req.conn.handle.sent = s.server.handle.sent ++ HTTP_DEFAULT_RESPONSE_EXPECT100 := by
    rw [hconn, hinterim]
    refine ⟨fun a ha => h.serverEager a (List.mem_of_mem_tail ha), ?_⟩
    have hall := @socketSends_iff s.server.handle [Lib.cstr HTTP_DEFAULT_RESPONSE_EXPECT100]
    have hcstr : Lib.cstr HTTP_DEFAULT_RESPONSE_EXPECT100 = HTTP_DEFAULT_RESPONSE_EXPECT100 := by
      decide
    have hshort : HTTP_DEFAULT_RESPONSE_EXPECT100.length ≤ HTTP_MAX_SEND_BLOCK := by decide
    rw [hcstr, List.flatten_singleton] at hall
    have hsent := hall.2 fun p hp => by
      rw [List.mem_singleton.1 (List.of_mem_zip hp).2]
      exact hshort.trans (h.serverEager _ (List.of_mem_zip hp).1)
    exact hcstr ▸ hsent
  have hsent := hserver.1.sent_message (show head.length ≤ HTTP_MAX_SEND_BLOCK by omega) body
  have hsince : sentSince s.server ⟨req.conn.host, req.conn.port,
      socketSends req.conn.handle (head :: sendBlocks body.length body)⟩ =
      HTTP_DEFAULT_RESPONSE_EXPECT100 ++ (head ++ body) :=
    sentSince_message (by rw [hsent, hserver.2, List.append_assoc])
  obtain ⟨res, ct₁, bytes, hrecv', hct, hvalues, hload, hrest⟩ := httpRecvResponse_expect100
    t.clientEnv (head ++ body) t.toClient hin
  refine ⟨⟨res.conn, ⟨req.conn.host, req.conn.port,
    socketSends req.conn.handle (head :: sendBlocks body.length body)⟩,
    keepAlive (t.process (prepareRequest req.conn cont)) (prepareRequest req.conn cont)⟩,
    req, res, ?_, hreq, ?_, cont, ct₁, bytes, head, entries, body, hcont,
    hct, hvalues, hmessage, his, hload, hrest⟩
  · rw [exchange, hsend]
    simp only [frontendRound, hrecv, hcont, hsend', hsince, hrecv']
  · rintro ⟨cont', entries', body', hcont', ⟨status, -, rfl, -⟩, ct₂, hct₂, -, hholds⟩
    obtain rfl := Option.some.inj (hcont.symm.trans hcont')
    obtain rfl := Option.some.inj (hct.symm.trans hct₂)
    have hne := headers_completeResponse_ne_nil hresponse (atoi status)
    have hlen := List.length_pos_iff.2 hne
    have hthree : (statusEntries (ascii "100")).length = 3 ∧ (statusEntries status).length = 3 :=
      ⟨rfl, rfl⟩
    split_ifs at hholds
    · have hcount := congrArg List.length (hvalues.symm.trans hholds.1)
      rw [List.length_append] at hcount
      omega
    · have hcount := congrArg List.length (hvalues.symm.trans hholds.1)
      rw [List.length_append, List.length_append] at hcount
      omega

/-- A client that asks for an interim answer. -/
def expectingTurn : Turn :=
  { greetingTurn with
    calls := greeting ++ [.header (ascii "Expect") (some (ascii "100-continue"))] }

/-- The hypotheses are satisfiable. -/
theorem exchange_expect_greeting :
    ∃ s' req res, exchange (fun _ => none) localSession expectingTurn = .ok (s', req, res) ∧
      ¬ResponseDone expectingTurn req res := by
  have hready : expectingTurn.Readable (fun _ => none) localConn := by
    refine ⟨⟨fun call hcall => ?_, ⟨_, _, List.mem_cons_self ..⟩, by decide, fun k v hmem => ?_, ?_,
      by decide, fun ct head hct hhead => ?_⟩, fun _ => responseOk_cookiePage,
      fun hlt => absurd hlt (by decide),
    fun _ (hlt : HTTP_MAX_BUFFER_SIZE < (written cookiePage).length) => absurd hlt (by decide)⟩
    · rcases List.mem_append.1 hcall with hcall | hcall
      · exact requestCallOk_greeting call hcall
      · rw [List.mem_singleton.1 hcall]
        exact ⟨by decide, _, rfl, by decide⟩
    · simp only [expectingTurn, greeting, List.cons_append, List.nil_append, List.mem_cons,
        reduceCtorEq, List.not_mem_nil, or_false, false_or, Call.header.injEq] at hmem
      rcases hmem with hmem | hmem <;> rw [hmem.1] <;> decide
    · rw [← (body_buildRequest _).2]
      decide
    · obtain rfl := Option.some.inj hct
      obtain rfl := Option.some.inj hhead
      decide +kernel
  obtain ⟨s', req, res, hrun, -, hno, -⟩ :=
    exchange_expect (s := localSession) idle_localSession hready (by decide)
  exact ⟨s', req, res, hrun, hno⟩

end Round

end Mpm
end Dukserver
