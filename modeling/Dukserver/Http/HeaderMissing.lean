/-
# Streams without a header

`http_recv_request` and `http_recv_response` in `libhttpd/http_sendrecv.c`, on a stream
that ends or fills the header buffer before CRLFCRLF was received.  `http_recv_headers`
returns `-1` then.  `http_recv_request` has an `int` for it, deletes the content and
returns (`refused_request_iff`); `http_recv_response` has a `size_t`, in which `-1` is
positive, and gives the header that is not there to the parser (`not_refused_both`).

The functions are followed here with the calls they make.
-/

import Dukserver.Http.RecvRequest

namespace Dukserver
namespace Http

open Lib (Bytes ascii indexOf delivered)

/-- What the two functions call. -/
inductive RecvCall
  | contentNew
  | recvHeaders
  | parseHeaders
  | recvBody
  | contentDelete
  deriving DecidableEq, Repr

/-- `http_recv_request` with its calls. -/
def recvRequestCalls (env : RecvEnv) (conn : HttpConnection) :
    List RecvCall × Except Fault Received :=
  match httpRecvHeaders conn httpContentNew with
  | .error e => ([.contentNew, .recvHeaders], .error e)
  | .ok r =>
    if r.ret ≤ 0 then
      ([.contentNew, .recvHeaders, .contentDelete], .ok ⟨none, r.conn, none⟩)
    else
      let mem := r.ct.headerbuf.buf ++ env.uninit
      match httpParseRequestHeaders mem r.ct.header.size.toNat r.ct.dict with
      | (false, _) =>
        ([.contentNew, .recvHeaders, .parseHeaders, .contentDelete], .ok ⟨none, r.conn, none⟩)
      | (true, dict) =>
        ([.contentNew, .recvHeaders, .parseHeaders, .recvBody],
          recvBodyOf env (expectContinue dict r.conn) { r.ct with dict := dict })

/-- `http_recv_response` with its calls; the parser reads the header from
`NULL`. -/
def recvResponseCalls (env : RecvEnv) (conn : HttpConnection) :
    List RecvCall × Except Fault Received :=
  match httpRecvHeaders conn httpContentNew with
  | .error e => ([.contentNew, .recvHeaders], .error e)
  | .ok r =>
    if r.ret = 0 then
      ([.contentNew, .recvHeaders, .contentDelete], .ok ⟨none, r.conn, none⟩)
    else if r.ct.header.ptr = .null then
      ([.contentNew, .recvHeaders, .parseHeaders], .error .nullPointer)
    else
      let mem := r.ct.headerbuf.buf ++ env.uninit
      match httpParseResponseHeaders mem r.ct.header.size.toNat r.ct.dict with
      | (false, _) =>
        ([.contentNew, .recvHeaders, .parseHeaders, .contentDelete], .ok ⟨none, r.conn, none⟩)
      | (true, dict) =>
        ([.contentNew, .recvHeaders, .parseHeaders, .recvBody],
          recvBodyOf env r.conn { r.ct with dict := dict })

/-- The stream ends or fills the buffer before a header is complete. -/
def HeaderMissing (conn : HttpConnection) : Prop :=
  indexOf CRLFCRLF ((delivered conn.handle.incoming).take HTTP_MAX_BUFFER_SIZE) = none

/-- The function returns `NULL`, and behind `http_recv_headers` it only releases
the content. -/
structure Refused (run : List RecvCall × Except Fault Received) : Prop where
  calls : run.1 = [.contentNew, .recvHeaders, .contentDelete]
  null : ∃ conn, run.2 = .ok ⟨none, conn, none⟩

section

variable {env : RecvEnv} {conn : HttpConnection}

/-- The calls do not change what the function does.  They are only noted, so
what is known of `http_recv_request` holds here. -/
theorem recvRequestCalls_snd : (recvRequestCalls env conn).2 = httpRecvRequest env conn := by
  unfold recvRequestCalls httpRecvRequest
  cases httpRecvHeaders conn httpContentNew with
  | error e => rfl
  | ok r =>
    simp only
    split_ifs
    · rfl
    · rcases httpParseRequestHeaders (r.ct.headerbuf.buf ++ env.uninit) r.ct.header.size.toNat
        r.ct.dict with ⟨_ | _, dict⟩ <;> rfl

/-- Nor do those of the other function. -/
theorem recvResponseCalls_snd : (recvResponseCalls env conn).2 = httpRecvResponse env conn := by
  unfold recvResponseCalls httpRecvResponse
  cases httpRecvHeaders conn httpContentNew with
  | error e => rfl
  | ok r =>
    simp only
    split_ifs
    · rfl
    · rfl
    · rcases httpParseResponseHeaders (r.ct.headerbuf.buf ++ env.uninit) r.ct.header.size.toNat
        r.ct.dict with ⟨_ | _, dict⟩ <;> rfl

/-- **A request without header is refused** if its first receive can be scanned.
Otherwise the scan for the end of the header starts before the buffer, and what
it reads there decides. -/
theorem refused_request_iff (h : HeaderMissing conn) :
    Refused (recvRequestCalls env conn) ↔ FirstChunkOk conn.handle.incoming := by
  constructor
  · rintro ⟨hcalls, -⟩
    by_contra hbad
    rw [recvRequestCalls, httpRecvHeaders_fault hbad] at hcalls
    cases hcalls
  · intro hok
    obtain ⟨r, hr, hret, -⟩ := httpRecvHeaders_notFound hok h
    have hstop : recvRequestCalls env conn =
        ([.contentNew, .recvHeaders, .contentDelete], .ok ⟨none, r.conn, none⟩) := by
      rw [recvRequestCalls, hr]
      simp only
      rw [if_pos (by omega)]
    rw [hstop]
    exact ⟨rfl, r.conn, rfl⟩

/-- **A response without header never is**: the parser is called, or the scan of
the first receive goes wrong before. -/
theorem recvResponseCalls_of_missing (h : HeaderMissing conn) :
    recvResponseCalls env conn =
        ([.contentNew, .recvHeaders, .parseHeaders], .error .nullPointer) ∨
      recvResponseCalls env conn = ([.contentNew, .recvHeaders], .error .uninitialised) := by
  by_cases hok : FirstChunkOk conn.handle.incoming
  · obtain ⟨r, hr, hret, hheader⟩ := httpRecvHeaders_notFound hok h
    have hnull : r.ct.header.ptr = .null := by rw [hheader]; rfl
    refine .inl ?_
    rw [recvResponseCalls, hr]
    simp only
    rw [if_neg (by omega), if_pos hnull]
  · refine .inr ?_
    rw [recvResponseCalls, httpRecvHeaders_fault hok]

/-- **A response without header is not**: `-1` is positive as a `size_t`.  The
test that `http_recv_request` makes on an `int` is made on a `size_t` here. -/
theorem not_refused_response (h : HeaderMissing conn) :
    ¬Refused (recvResponseCalls env conn) := by
  rintro ⟨hcalls, -⟩
  rcases recvResponseCalls_of_missing h with hr | hr
  · rw [hr] at hcalls
    cases hcalls
  · rw [hr] at hcalls
    cases hcalls

/-- **No stream without header is refused by both functions.** -/
theorem not_refused_both (h : HeaderMissing conn) :
    ¬(Refused (recvRequestCalls env conn) ∧ Refused (recvResponseCalls env conn)) :=
  fun hboth => not_refused_response h hboth.2

/-- A peer that closes at once. -/
theorem not_refused_both_closed :
    ¬(Refused (recvRequestCalls plainEnv (connectionOf [])) ∧
      Refused (recvResponseCalls plainEnv (connectionOf []))) :=
  not_refused_both rfl

/-- The peer closes in the header: the parser runs, on `NULL`.  The reference to
the header was never set. -/
theorem recvResponse_cut :
    HeaderMissing (connectionOf [ascii "HTTP/1.1 200 OK\r\n"]) ∧
      ¬Refused (recvResponseCalls plainEnv (connectionOf [ascii "HTTP/1.1 200 OK\r\n"])) := by
  have hmissing : HeaderMissing (connectionOf [ascii "HTTP/1.1 200 OK\r\n"]) := by
    unfold HeaderMissing
    decide +kernel
  exact ⟨hmissing, not_refused_response hmissing⟩

end

end Http
end Dukserver
