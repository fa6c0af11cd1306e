/-
# Receiving a message

`libhttpd/http_sendrecv.c`, `http_recv_request` and `http_recv_response` (lines
495-550), and what they leave in `ct`.

Once its header is there, a request is a function of the bytes received so far
and of the dictionary the header parses to (`httpRecvRequest_eq`): the rest is
`http_recv_body`.  The body buffer holds what was delivered of the body, but
`ct->body->size` is `Content-Length`, so a peer that stops early leaves the size
larger than what was received (`bodyReceived_iff`).
-/

import Dukserver.Http.Parse
import Dukserver.Http.RecvBody

namespace Dukserver
namespace Http

open Lib (Bytes ascii atoi indexOf delivered after reach)

/-- What a receive leaves: the content, `none` being `NULL`, the connection and
the temporary file. -/
structure Received where
  content : Option HttpContent
  conn : HttpConnection
  tmpfile : Option Bytes
  deriving DecidableEq, Repr

/-- The end of `http_recv_request` and `http_recv_response`. -/
def recvBodyOf (env : RecvEnv) (conn : HttpConnection) (ct : HttpContent) : Except Fault Received :=
  match httpRecvBody env conn ct with
  | .error e => .error e
  | .ok b => .ok ⟨some b.ct, b.conn, b.tmpfile⟩

/-- The answer to `Expect: 100-continue`. -/
def expectContinue (dict : HttpMap) (conn : HttpConnection) : HttpConnection :=
  match httpMapGet dict (ascii "Expect") with
  | none => conn
  | some expectStr =>
    if expectStr = ascii "100-continue" then
      (httpSendString conn HTTP_DEFAULT_RESPONSE_EXPECT100).2
    else conn

/-- `http_recv_request`. -/
def httpRecvRequest (env : RecvEnv) (conn : HttpConnection) : Except Fault Received :=
  match httpRecvHeaders conn httpContentNew with
  | .error e => .error e
  | .ok r =>
    if r.ret ≤ 0 then .ok ⟨none, r.conn, none⟩
    else
      let mem := r.ct.headerbuf.buf ++ env.uninit
      match httpParseRequestHeaders mem r.ct.header.size.toNat r.ct.dict with
      | (false, _) => .ok ⟨none, r.conn, none⟩
      | (true, dict) =>
        recvBodyOf env (expectContinue dict r.conn) { r.ct with dict := dict }

/-- `http_recv_response`.  It keeps the result of `http_recv_headers` in a
`size_t`, where `-1` is positive: without a header it parses from `NULL`. -/
def httpRecvResponse (env : RecvEnv) (conn : HttpConnection) : Except Fault Received :=
  match httpRecvHeaders conn httpContentNew with
  | .error e => .error e
  | .ok r =>
    if r.ret = 0 then .ok ⟨none, r.conn, none⟩
    else if r.ct.header.ptr = .null then .error .nullPointer
    else
      let mem := r.ct.headerbuf.buf ++ env.uninit
      match httpParseResponseHeaders mem r.ct.header.size.toNat r.ct.dict with
      | (false, _) => .ok ⟨none, r.conn, none⟩
      | (true, dict) => recvBodyOf env r.conn { r.ct with dict := dict }

/-! ### The temporary file -/

/-- `http_recv_body` adds nothing to the dictionary but the name of its file.
So what the parser stored is what the caller reads. -/
theorem httpRecvBody_dict {env : RecvEnv} {conn : HttpConnection} {ct : HttpContent} {b : RecvBody}
    (h : httpRecvBody env conn ct = .ok b) :
    b.ct.dict = ct.dict ∨ b.ct.dict = httpMapSet ct.dict HTTP_TMPFILE (some env.tmpfilename) := by
  rw [httpRecvBody] at h
  simp only at h
  repeat' split at h
  all_goals cases h
  all_goals first
    | exact .inl (by with_reducible rfl)
    | exact .inr (by with_reducible rfl)

/-- The dictionary of a received content is what its header parses to, with the
name of the temporary file or without. -/
theorem dict_of_recvBodyOf {env : RecvEnv} {conn : HttpConnection} {ct ct' : HttpContent}
    {r : Received} (h : recvBodyOf env conn ct = .ok r) (hct : r.content = some ct') :
    ct'.dict = ct.dict ∨ ct'.dict = httpMapSet ct.dict HTTP_TMPFILE (some env.tmpfilename) := by
  rw [recvBodyOf] at h
  split at h
  · cases h
  · rename_i b hb
    obtain rfl := Except.ok.inj h
    obtain rfl := Option.some.inj hct
    exact httpRecvBody_dict hb

/-- The dictionary of what is received behind a parsed header. -/
theorem dict_of_parsed {env : RecvEnv} {failed : HttpConnection} {ct ct' : HttpContent}
    {p : Bool × HttpMap} {r : Received} (conn : HttpMap → HttpConnection)
    (h : (match p with
      | (false, _) => Except.ok (Received.mk none failed none)
      | (true, dict) => recvBodyOf env (conn dict) { ct with dict := dict }) = .ok r)
    (hct : r.content = some ct') :
    ∃ dict, p = (true, dict) ∧
      (ct'.dict = dict ∨ ct'.dict = httpMapSet dict HTTP_TMPFILE (some env.tmpfilename)) := by
  obtain ⟨_ | _, dict⟩ := p
  · obtain rfl := Except.ok.inj h
    cases hct
  · exact ⟨dict, rfl, dict_of_recvBodyOf h hct⟩

/-- **Whatever is received, its dictionary is a parsed one**, with the name of
the temporary file or without. -/
theorem dict_of_received {env : RecvEnv} {conn : HttpConnection} {r : Received} {ct : HttpContent}
    (h : httpRecvRequest env conn = .ok r ∨ httpRecvResponse env conn = .ok r)
    (hct : r.content = some ct) :
    ∃ type mem buflen dict,
      httpParseLines type mem buflen (httpMapNew HTTP_DEFAULT_HEADERS_COUNT) = (true, dict) ∧
      (ct.dict = dict ∨ ct.dict = httpMapSet dict HTTP_TMPFILE (some env.tmpfilename)) := by
  rcases h with h | h
  · rw [httpRecvRequest] at h
    split at h
    · cases h
    · rename_i q hq
      split_ifs at h
      · obtain rfl := Except.ok.inj h
        cases hct
      · obtain ⟨dict, hdict, hd⟩ := dict_of_parsed (expectContinue · q.conn) h hct
        rw [recvHeadersLoop_dict hq] at hdict
        exact ⟨.request, _, _, dict, hdict, hd⟩
  · rw [httpRecvResponse] at h
    split at h
    · cases h
    · rename_i q hq
      split_ifs at h
      · obtain rfl := Except.ok.inj h
        cases hct
      · obtain ⟨dict, hdict, hd⟩ := dict_of_parsed (fun _ => q.conn) h hct
        rw [recvHeadersLoop_dict hq] at hdict
        exact ⟨.response, _, _, dict, hdict, hd⟩

/-! ### From the stream to the content -/

/-- What has been received when the header of `h` bytes is complete. -/
def headerReceived (conn : HttpConnection) (h : ℕ) : Bytes :=
  (delivered conn.handle.incoming).take (min (reach h conn.handle.incoming) HTTP_MAX_BUFFER_SIZE)

/-- The header of the next message is the first `h` bytes of the stream, and
parses to `dict`. -/
structure Head (type : HttpParseType) (env : RecvEnv) (conn : HttpConnection) (h : ℕ)
    (dict : HttpMap) : Prop where
  found : ∃ i, h = i + 4 ∧
    indexOf CRLFCRLF ((delivered conn.handle.incoming).take HTTP_MAX_BUFFER_SIZE) = some i
  parsed : httpParseLines type (headerReceived conn h ++ env.uninit) h
    (httpMapNew HTTP_DEFAULT_HEADERS_COUNT) = (true, dict)

section Spec

variable {type : HttpParseType} {env : RecvEnv} {conn : HttpConnection} {h n : ℕ} {dict : HttpMap}

/-- The header and its end are among what was received, and this is a part of
what is delivered. -/
theorem Head.bounds (hd : Head type env conn h dict) :
    4 ≤ h ∧ h ≤ (delivered conn.handle.incoming).length ∧
      h ≤ min (reach h conn.handle.incoming) HTTP_MAX_BUFFER_SIZE ∧
      min (reach h conn.handle.incoming) HTTP_MAX_BUFFER_SIZE ≤
        (delivered conn.handle.incoming).length := by
  obtain ⟨i, rfl, hi⟩ := hd.found
  obtain ⟨hi, hle⟩ := (Lib.indexOf_take CRLFCRLF_ne_nil).1 hi
  have hlen := Lib.indexOf_le CRLFCRLF_ne_nil hi
  rw [length_CRLFCRLF] at hle hlen
  have h₁ := Lib.le_reach hlen
  have h₂ := Lib.reach_le (by omega) hlen
  omega

/-- What is received for a header: up to the end of its last chunk, if that fits
the buffer. -/
theorem Head.length_received (hd : Head type env conn h dict) :
    (headerReceived conn h).length = min (reach h conn.handle.incoming) HTTP_MAX_BUFFER_SIZE := by
  have := hd.bounds
  rw [headerReceived, List.length_take]
  omega

/-- **A request is received by its header and its body**: what the passes of
`http_recv_headers` have found depends on the stream only. -/
theorem httpRecvRequest_eq (hok : FirstChunkOk conn.handle.incoming)
    (hd : Head .request env conn h dict) :
    httpRecvRequest env conn =
      recvBodyOf env (expectContinue dict (conn.after (headerReceived conn h).length))
        (Http.parsed (headerReceived conn h) h dict) := by
  have hlen := hd.length_received
  obtain ⟨i, rfl, hi⟩ := hd.found
  obtain ⟨scans, -, hr⟩ := httpRecvHeaders_found hok hi
  rw [hlen, httpRecvRequest, hr]
  have hparsed : httpParseRequestHeaders ((withHeader (headerReceived conn (i + 4))
      (i + 4)).headerbuf.buf ++ env.uninit)
      (withHeader (headerReceived conn (i + 4)) (i + 4)).header.size.toNat
      (withHeader (headerReceived conn (i + 4)) (i + 4)).dict = (true, dict) := hd.parsed
  rw [headerReceived] at hparsed
  simp only
  rw [if_neg (by omega), hparsed]
  rfl

/-- A content is returned only for a header that was found and accepted: every
other way out returns `NULL` or is a fault. -/
theorem head_of_httpRecvRequest {r : Received} {ct : HttpContent}
    (hr : httpRecvRequest env conn = .ok r) (hct : r.content = some ct) :
    FirstChunkOk conn.handle.incoming ∧ ∃ h dict, Head .request env conn h dict := by
  have hok : FirstChunkOk conn.handle.incoming := by
    by_contra hbad
    rw [httpRecvRequest, httpRecvHeaders_fault hbad] at hr
    cases hr
  refine ⟨hok, ?_⟩
  cases hi : indexOf CRLFCRLF ((delivered conn.handle.incoming).take HTTP_MAX_BUFFER_SIZE) with
  | none =>
    obtain ⟨q, hq, hret, -⟩ := httpRecvHeaders_notFound hok hi
    rw [httpRecvRequest, hq] at hr
    simp only at hr
    rw [hret, if_pos (by omega)] at hr
    obtain rfl := Except.ok.inj hr
    cases hct
  | some i =>
    rcases hparse : httpParseLines .request (headerReceived conn (i + 4) ++ env.uninit) (i + 4)
      (httpMapNew HTTP_DEFAULT_HEADERS_COUNT) with ⟨ok, dict⟩
    cases ok with
    | true => exact ⟨i + 4, dict, ⟨i, rfl, hi⟩, hparse⟩
    | false =>
      obtain ⟨scans, -, hq⟩ := httpRecvHeaders_found hok hi
      rw [httpRecvRequest, hq] at hr
      have hparsed : httpParseRequestHeaders ((withHeader (headerReceived conn (i + 4))
          (i + 4)).headerbuf.buf ++ env.uninit)
          (withHeader (headerReceived conn (i + 4)) (i + 4)).header.size.toNat
          (withHeader (headerReceived conn (i + 4)) (i + 4)).dict = (false, dict) := hparse
      rw [headerReceived] at hparsed
      simp only at hr
      rw [if_neg (by omega), hparsed] at hr
      obtain rfl := Except.ok.inj hr
      cases hct

/-- The interim answer receives nothing.  It only sends, so what is still to
come is as before. -/
@[simp] theorem expectContinue_incoming (dict : HttpMap) (conn : HttpConnection) :
    (expectContinue dict conn).handle.incoming = conn.handle.incoming := by
  rw [expectContinue]
  split
  · rfl
  · split_ifs
    · exact httpSendString_incoming ..
    · rfl

/-- What is still to come after the header was received. -/
theorem Head.delivered_rest (hd : Head type env conn h dict) :
    delivered (expectContinue dict (conn.after
      (headerReceived conn h).length)).handle.incoming =
      (delivered conn.handle.incoming).drop (headerReceived conn h).length := by
  have := hd.bounds
  rw [expectContinue_incoming]
  exact Lib.delivered_after (by rw [hd.length_received]; omega)

/-- What came with the header is the next part of the stream. -/
theorem Head.drop_received (hd : Head type env conn h dict) :
    (headerReceived conn h).drop h =
      ((delivered conn.handle.incoming).drop h).take ((headerReceived conn h).length - h) := by
  rw [hd.length_received, headerReceived, List.drop_take]

/-- **The body buffer holds the next `n` bytes of the stream**, or what there
is: those that came with the header, and then those that are received. -/
theorem Head.bodybuf_eq (hd : Head type env conn h dict)
    (hlt : (headerReceived conn h).length < h + n) :
    (headerReceived conn h).drop h ++
      ((delivered conn.handle.incoming).drop (headerReceived conn h).length).take
        (h + n - (headerReceived conn h).length) =
      ((delivered conn.handle.incoming).drop h).take n := by
  have hb := hd.bounds
  have hlen := hd.length_received
  have hdrop : (delivered conn.handle.incoming).drop (headerReceived conn h).length =
      ((delivered conn.handle.incoming).drop h).drop ((headerReceived conn h).length - h) := by
    rw [List.drop_drop]
    congr 1
    omega
  have hsum : (headerReceived conn h).length - h +
      (h + n - (headerReceived conn h).length) = n := by omega
  rw [hd.drop_received, hdrop, ← List.take_add, hsum]

/-- The call returns, and if it returns a content, all of its body are bytes of
the stream behind the header that were received. -/
def BodyReceived (env : RecvEnv) (conn : HttpConnection) (h : ℕ) : Prop :=
  ∃ r, httpRecvRequest env conn = .ok r ∧ ∀ ct, r.content = some ct →
    ∃ bytes, ct.load ct.body = .ok bytes ∧ (bytes.length : ℤ) = ct.body.size ∧
      bytes <+: (delivered conn.handle.incoming).drop h

/-- The body that is complete in the header buffer.  It can be read there, as it
lies within what was received. -/
theorem load_body_header (hn : 0 < n) (hle : h + n ≤ (headerReceived conn h).length)
    (hd : Head .request env conn h dict) :
    ∃ bytes, HttpContent.load { Http.parsed (headerReceived conn h) h dict with
        body := { (Http.parsed (headerReceived conn h) h dict).body with size := n } }
        { (Http.parsed (headerReceived conn h) h dict).body with size := n } = .ok bytes ∧
      bytes.length = n ∧ bytes <+: (delivered conn.handle.incoming).drop h := by
  refine ⟨((headerReceived conn h).drop h).take n, load_body_take dict hn hle, ?_, ?_⟩
  · rw [List.length_take, List.length_drop]
    omega
  · rw [hd.drop_received, List.take_take]
    exact List.take_prefix ..

/-- A body that is complete in the header buffer was received.  No further
receive is made, so no short one can spoil it. -/
theorem bodyReceived_of_le {v : Bytes} (hok : FirstChunkOk conn.handle.incoming)
    (hd : Head .request env conn h dict)
    (hv : httpMapGet dict (ascii "Content-Length") = some v) (hn : atoi v = n) (hpos : 0 < n)
    (hin : h + n ≤ (headerReceived conn h).length) : BodyReceived env conn h := by
  rw [BodyReceived, httpRecvRequest_eq hok hd, recvBodyOf, httpRecvBody_of_le _ _ hv hn hpos hin]
  refine ⟨_, rfl, fun ct hct => ?_⟩
  obtain rfl := Option.some.inj hct
  obtain ⟨bytes, hload, hsize, hpre⟩ := load_body_header hpos hin hd
  exact ⟨bytes, hload, by rw [hsize], hpre⟩

/-- One that is not was received if the rest of it is delivered: the size is
that of `Content-Length`, and the buffer holds what there was. -/
theorem bodyReceived_of_lt_iff {v : Bytes} (hok : FirstChunkOk conn.handle.incoming)
    (hd : Head .request env conn h dict)
    (hv : httpMapGet dict (ascii "Content-Length") = some v) (hn : atoi v = n) (hpos : 0 < n)
    (hle : n ≤ HTTP_MAX_BUFFER_SIZE) (hlt : (headerReceived conn h).length < h + n) :
    BodyReceived env conn h ↔ h + n ≤ (delivered conn.handle.incoming).length := by
  have hb := hd.bounds
  obtain ⟨data, hdata, hbody⟩ := httpRecvBody_of_lt env
    (expectContinue dict (conn.after (headerReceived conn h).length)) hv hn
    (by rw [hd.length_received]; omega) hlt hle
  rw [hd.delivered_rest] at hdata
  have hlen : (((delivered conn.handle.incoming).drop h).take n).length =
      min n ((delivered conn.handle.incoming).length - h) := by
    rw [List.length_take, List.length_drop]
  rw [BodyReceived, httpRecvRequest_eq hok hd, recvBodyOf, hbody, hdata, hd.bodybuf_eq hlt]
  constructor
  · rintro ⟨r, hr, hall⟩
    obtain rfl := Except.ok.inj hr
    obtain ⟨bytes, hload, -, -⟩ := hall _ rfl
    rw [HttpContent.load_bodybuf rfl hpos] at hload
    by_contra hshort
    rw [if_neg (by simp only [hlen]; omega)] at hload
    cases hload
  · intro hlong
    refine ⟨_, rfl, fun ct hct => ?_⟩
    obtain rfl := Option.some.inj hct
    refine ⟨((delivered conn.handle.incoming).drop h).take n, ?_, ?_, List.take_prefix ..⟩
    · rw [HttpContent.load_bodybuf rfl hpos, if_pos (by simp only [hlen]; omega),
        List.take_take, min_self]
    · rw [hlen]
      simp only
      omega

/-- **The body is what was received exactly when the peer delivers all of it**,
for every request with a `Content-Length` that fits the body buffer: the first
receive has to get three bytes for the call to be defined at all, and the stream
must not end or pause before the header and `Content-Length` bytes behind it. -/
theorem bodyReceived_iff {v : Bytes} (hd : Head .request env conn h dict)
    (hv : httpMapGet dict (ascii "Content-Length") = some v) (hn : atoi v = n) (hpos : 0 < n)
    (hle : n ≤ HTTP_MAX_BUFFER_SIZE) :
    BodyReceived env conn h ↔
      FirstChunkOk conn.handle.incoming ∧ h + n ≤ (delivered conn.handle.incoming).length := by
  constructor
  · intro hbody
    have hok : FirstChunkOk conn.handle.incoming := by
      by_contra hbad
      obtain ⟨r, hr, -⟩ := hbody
      rw [httpRecvRequest, httpRecvHeaders_fault hbad] at hr
      cases hr
    refine ⟨hok, ?_⟩
    by_cases hin : h + n ≤ (headerReceived conn h).length
    · have := hd.bounds
      rw [hd.length_received] at hin
      omega
    · exact (bodyReceived_of_lt_iff hok hd hv hn hpos hle (not_le.1 hin)).1 hbody
  · rintro ⟨hok, hlong⟩
    by_cases hin : h + n ≤ (headerReceived conn h).length
    · exact bodyReceived_of_le hok hd hv hn hpos hin
    · exact (bodyReceived_of_lt_iff hok hd hv hn hpos hle (not_le.1 hin)).2 hlong

/-- A request with a body of five bytes. -/
def putHead : Bytes := ascii "PUT / HTTP/1.1\r\nContent-Length: 5\r\n\r\n"

/-- The environment of the examples: nothing lies behind the received bytes. -/
def plainEnv : RecvEnv := ⟨ascii "./0000-00000000-00000000.tmp", true, []⟩

/-- The dictionary of a header block. -/
def dictOf (type : HttpParseType) (head : Bytes) : HttpMap :=
  (httpParseLines type head head.length (httpMapNew HTTP_DEFAULT_HEADERS_COUNT)).2

/-- The example announces five bytes. -/
theorem get_dictOf_putHead : httpMapGet (dictOf .request putHead) (ascii "Content-Length") =
    some (ascii "5") := by decide

/-- The first chunk of `putHead` is long enough. -/
theorem firstChunkOk_putHead (s : Bytes) (cs : List Bytes) :
    FirstChunkOk (connectionOf ((putHead ++ s) :: cs)).handle.incoming := by
  intro c hc
  obtain rfl : putHead ++ s = c := Option.some.inj hc
  refine .inr ?_
  rw [List.length_append, show putHead.length = 37 by decide]
  omega

/-- The hypotheses are satisfiable: the body comes in three parts. -/
theorem bodyReceived_split :
    BodyReceived plainEnv (connectionOf [putHead ++ ascii "a", ascii "b", ascii "cde"]) 37 := by
  have hd : Head .request plainEnv
      (connectionOf [putHead ++ ascii "a", ascii "b", ascii "cde"]) 37
      (dictOf .request putHead) := ⟨⟨33, rfl, by decide⟩, by decide⟩
  have hn : atoi (ascii "5") = (5 : ℕ) := by decide
  exact (bodyReceived_iff hd get_dictOf_putHead hn (by decide) (by decide)).2
    ⟨firstChunkOk_putHead _ _, by decide⟩

/-- The peer closes after two bytes of the body. -/
theorem bodyReceived_short :
    Head .request plainEnv (connectionOf [putHead ++ ascii "ab"]) 37 (dictOf .request putHead) ∧
      httpMapGet (dictOf .request putHead) (ascii "Content-Length") = some (ascii "5") ∧
      ¬BodyReceived plainEnv (connectionOf [putHead ++ ascii "ab"]) 37 := by
  have hd : Head .request plainEnv (connectionOf [putHead ++ ascii "ab"]) 37
      (dictOf .request putHead) := ⟨⟨33, rfl, by decide⟩, by decide⟩
  have hn : atoi (ascii "5") = (5 : ℕ) := by decide
  refine ⟨hd, get_dictOf_putHead, fun hbody => ?_⟩
  have := (bodyReceived_of_lt_iff (firstChunkOk_putHead _ _) hd get_dictOf_putHead hn (by decide)
    (by decide) (by decide)).1 hbody
  exact absurd this (by decide)

end Spec

end Http
end Dukserver
