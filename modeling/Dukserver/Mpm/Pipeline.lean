/-
# Requests one after the other

`libhttpd/http_mpm.c`, `_worker_frontend`: the loop calls `http_recv_request` on
its connection again and again, and each call has buffers of its own.  What the
header loop of a call has received behind the end of its request goes with its
content and is lost for the next one (`recvRequests_shared_chunk`).  As long as
there is nothing, so whenever no chunk holds bytes of two requests, the calls
return the requests in order (`recvRequests_pipeline`).
-/

import Dukserver.Http.Wire
import Dukserver.Mpm.Frontend
import Mathlib.Data.List.Forall2

namespace Dukserver
namespace Mpm

open Lib (Bytes ascii atoi delivered after reach indexOf Numeral)
open Http

/-- The calls of `http_recv_request` in the loop, each in its own environment,
up to the first that returns `NULL`: the contents, and the connection. -/
def recvRequests (conn : HttpConnection) :
    List RecvEnv → Except Fault (List HttpContent × HttpConnection)
  | [] => .ok ([], conn)
  | env :: envs =>
    match httpRecvRequest env conn with
    | .error e => .error e
    | .ok ⟨none, conn, _⟩ => .ok ([], conn)
    | .ok ⟨some req, conn, _⟩ =>
      match recvRequests conn envs with
      | .error e => .error e
      | .ok (reqs, conn) => .ok (req :: reqs, conn)

/-- The calls return exactly these requests, in this order. -/
def ReturnsAll (conn : HttpConnection) (envs : List RecvEnv) (rs : List Request) : Prop :=
  ∃ reqs conn', recvRequests conn envs = .ok (reqs, conn') ∧
    List.Forall₂ Request.Delivered rs reqs

/-- Without a body and without `Content-Length`, or with a body of that length
that fits the buffers. -/
def Framed (r : Request) : Prop :=
  (r.body = [] ∧ ∀ f ∈ r.fields, f.name ≠ ascii "Content-Length") ∨
  (r.body.length ≤ HTTP_MAX_BUFFER_SIZE ∧ (∃ f ∈ r.fields, f.name = ascii "Content-Length") ∧
    ∀ f ∈ r.fields, f.name = ascii "Content-Length" → Numeral f.value r.body.length)

/-- The `Content-Length` of a framed request: there is none and no body, or it
is the length of the body, which fits the buffer. -/
theorem Framed.header {r : Request} (h : Framed r) :
    r.header (ascii "Content-Length") = none ∧ r.body = [] ∨
    ∃ v, r.header (ascii "Content-Length") = some v ∧ atoi v = r.body.length ∧
      r.body.length ≤ HTTP_MAX_BUFFER_SIZE := by
  rw [Request.header]
  rcases h with ⟨hbody, hnone⟩ | ⟨hle, hsome, hall⟩
  · left
    have hfind : (r.fields.reverse.find? fun f => f.name == ascii "Content-Length") = none := by
      rw [List.find?_eq_none]
      exact fun f hf he => hnone f (List.mem_reverse.1 hf) (eq_of_beq he)
    rw [hfind]
    exact ⟨rfl, hbody⟩
  · right
    cases hfind : r.fields.reverse.find? fun f => f.name == ascii "Content-Length" with
    | none =>
      obtain ⟨f, hf, hname⟩ := hsome
      rw [List.find?_eq_none] at hfind
      exact absurd (beq_iff_eq.2 hname) (hfind f (List.mem_reverse.2 hf))
    | some f =>
      have hf := List.mem_reverse.1 (List.mem_of_find?_eq_some hfind)
      have hname : (f.name == ascii "Content-Length") = true :=
        List.find?_some (p := fun f : Field => f.name == ascii "Content-Length") hfind
      have hnum := hall f hf (eq_of_beq hname)
      refine ⟨f.value, ?_, Lib.atoi_of_numeral hnum ?_, hle⟩
      · rw [Option.bind_some, Field.stored, if_neg hnum.1]
      · have := size_lt
        omega

/-- A header block has at least four bytes. -/
theorem length_head_ge (r : Request) : 4 ≤ r.head.length := by
  have htwo := two_le_length_block (r.fields.map Field.line)
  rw [Request.head, Request.lines, block_cons, List.length_append]
  simp only [List.length_cons]
  omega

/-- How the chunks have to lie for the next request: the first receive gets
three bytes, and the one that completes the header nothing behind the request. -/
structure Aligned (r : Request) (cs : List Bytes) : Prop where
  first : FirstChunkOk cs
  within : min (reach r.head.length cs) HTTP_MAX_BUFFER_SIZE ≤ r.bytes.length

/-- The next bytes of the connection are the request, in chunks that fit it. -/
structure Next (conn : HttpConnection) (r : Request) (rest : Bytes) : Prop where
  wellFormed : r.WellFormed
  fits : r.head.length ≤ HTTP_MAX_BUFFER_SIZE
  stream : delivered conn.handle.incoming = r.bytes ++ rest
  aligned : Aligned r conn.handle.incoming

/-- The connection when the header of the request is received and answered. -/
def afterHeader (conn : HttpConnection) (r : Request) : HttpConnection :=
  expectContinue (r.dict HTTP_DEFAULT_HEADERS_COUNT)
    (conn.after (headerReceived conn r.head.length).length)

/-- The content before its body is received. -/
def atBody (conn : HttpConnection) (r : Request) : HttpContent :=
  parsed (headerReceived conn r.head.length) r.head.length (r.dict HTTP_DEFAULT_HEADERS_COUNT)

section Call

variable {conn : HttpConnection} {r : Request} {rest : Bytes}
variable (h : Next conn r rest)

include h

/-- What arrives starts with the header. -/
theorem Next.delivered_eq :
    delivered conn.handle.incoming = r.head ++ (r.body ++ rest) := by
  rw [h.stream, Request.bytes, List.append_assoc]

/-- **The header of the request is the next one of the stream.**  It is what
arrives first, its end is the first CRLFCRLF, and the parser reads back what the
request says. -/
theorem Next.head (env : RecvEnv) :
    Head .request env conn r.head.length (r.dict HTTP_DEFAULT_HEADERS_COUNT) := by
  have hfour := length_head_ge r
  have hd := h.delivered_eq
  have hfits := h.fits
  have hindex : indexOf CRLFCRLF r.head = some (r.head.length - 4) := by
    refine indexOf_block fun t ht => ?_
    rcases List.mem_cons.1 ht with rfl | ht
    · exact ⟨r.line_ne_nil, h.wellFormed.not_mem_line⟩
    · obtain ⟨f, hf, rfl⟩ := List.mem_map.1 ht
      exact ⟨f.line_ne_nil, (h.wellFormed.fields f hf).not_mem_line⟩
  have hfound : indexOf CRLFCRLF ((delivered conn.handle.incoming).take HTTP_MAX_BUFFER_SIZE) =
      some (r.head.length - 4) := by
    rw [Lib.indexOf_take CRLFCRLF_ne_nil, hd]
    refine ⟨Lib.indexOf_append CRLFCRLF_ne_nil hindex, ?_⟩
    rw [length_CRLFCRLF]
    omega
  refine ⟨⟨r.head.length - 4, by omega, hfound⟩, ?_⟩
  have hreach := Lib.le_reach (show r.head.length ≤ (delivered conn.handle.incoming).length by
    rw [hd, List.length_append]; omega)
  rw [headerReceived, hd, List.take_append,
    List.take_of_length_le (show r.head.length ≤ min (reach r.head.length conn.handle.incoming)
      HTTP_MAX_BUFFER_SIZE by omega), List.append_assoc]
  exact httpParseLines_wire h.wellFormed _

/-- What came with the header is a part of the request.  It is no less than the
header, and it does not reach into the next request. -/
theorem Next.length_received : r.head.length ≤ (headerReceived conn r.head.length).length ∧
    (headerReceived conn r.head.length).length ≤ r.head.length + r.body.length := by
  have hbounds := (h.head plainEnv).bounds
  have hwithin := h.aligned.within
  rw [Request.bytes, List.length_append] at hwithin
  rw [(h.head plainEnv).length_received]
  omega

/-- Once the whole request was taken, the connection is behind it.  What the
header buffer took of the body counts as taken. -/
theorem Next.incoming_after {n : ℕ} (hn : (headerReceived conn r.head.length).length + n =
    r.head.length + r.body.length) : ((afterHeader conn r).after n).handle.incoming =
      after r.bytes.length conn.handle.incoming := by
  have hle : (headerReceived conn r.head.length).length ≤
      (delivered conn.handle.incoming).length := by
    have := (h.head plainEnv).bounds
    rw [(h.head plainEnv).length_received]
    omega
  show after n (afterHeader conn r).handle.incoming = _
  rw [afterHeader, expectContinue_incoming]
  show after n (after (headerReceived conn r.head.length).length conn.handle.incoming) = _
  rw [Lib.after_after hle, hn, Request.bytes, List.length_append]

/-- A part of the stream behind the header that is as long as the body is the
body. -/
theorem Next.eq_body {bytes : Bytes} (hlen : bytes.length = r.body.length)
    (hpre : bytes <+: (delivered conn.handle.incoming).drop r.head.length) : bytes = r.body := by
  rw [h.delivered_eq, List.drop_left] at hpre
  exact (List.prefix_of_prefix_length_le hpre (List.prefix_append ..) hlen.le).eq_of_length hlen

/-- What the call is to leave: the request, and the connection behind it. -/
def Served (conn : HttpConnection) (r : Request) (res : Except Fault Received) : Prop :=
  ∃ ct conn', res = .ok ⟨some ct, conn', none⟩ ∧ r.Delivered ct ∧
    conn'.handle.incoming = after r.bytes.length conn.handle.incoming

/-- A request without a body: nothing is received behind what came with the
header, and nothing came with it. -/
theorem Next.recv_none (env : RecvEnv) (hbody : r.body = [])
    (hv : ∀ v, r.header (ascii "Content-Length") = some v → atoi v ≤ 0) :
    Served conn r (recvBodyOf env (afterHeader conn r) (atBody conn r)) := by
  have hlen := h.length_received
  have hincoming := h.incoming_after (n := 0)
  rw [hbody, List.length_nil] at hlen hincoming
  have hdrop : (headerReceived conn r.head.length).drop r.head.length = [] :=
    List.drop_eq_nil_of_le (by omega)
  have hnone : ∀ v, httpMapGet (r.dict HTTP_DEFAULT_HEADERS_COUNT) (ascii "Content-Length") =
      some v → atoi v ≤ 0 := by
    intro v hget
    rw [httpMapGet_dict h.wellFormed _ (by decide)] at hget
    exact hv v hget
  rw [recvBodyOf, atBody, httpRecvBody_of_none _ _ hnone]
  refine ⟨_, _, rfl, delivered_of_dict h.wellFormed rfl ?_ ?_, ?_⟩
  · rw [load_body_parsed hlen.1, hdrop, hbody]
  · rw [size_body_parsed _ hlen.1, hdrop, hbody]
  · rw [← hincoming (by omega)]
    exact Lib.after_zero.symm

/-- A request whose body came with its header, whole and with nothing behind it,
as what was received is a part of this request. -/
theorem Next.recv_of_le (env : RecvEnv) {v : Bytes}
    (hv : r.header (ascii "Content-Length") = some v) (hn : atoi v = r.body.length)
    (hpos : 0 < r.body.length)
    (hle : r.head.length + r.body.length ≤ (headerReceived conn r.head.length).length) :
    Served conn r (recvBodyOf env (afterHeader conn r) (atBody conn r)) := by
  have hlen := h.length_received
  have hget : httpMapGet (r.dict HTTP_DEFAULT_HEADERS_COUNT) (ascii "Content-Length") = some v := by
    rw [httpMapGet_dict h.wellFormed _ (by decide)]
    exact hv
  obtain ⟨bytes, hload, hbytes, hpre⟩ := load_body_header hpos hle (h.head plainEnv)
  rw [h.eq_body hbytes hpre] at hload
  rw [recvBodyOf, atBody, httpRecvBody_of_le _ _ hget hn hpos hle]
  refine ⟨_, _, rfl, delivered_of_dict h.wellFormed rfl hload rfl, ?_⟩
  rw [← h.incoming_after (n := 0) (by omega)]
  exact Lib.after_zero.symm

/-- A request whose body has to be received, in part or whole: the loop takes as
many bytes as are missing, and these are the next ones. -/
theorem Next.recv_of_lt (env : RecvEnv) {v : Bytes}
    (hv : r.header (ascii "Content-Length") = some v) (hn : atoi v = r.body.length)
    (hfits : r.body.length ≤ HTTP_MAX_BUFFER_SIZE)
    (hlt : (headerReceived conn r.head.length).length < r.head.length + r.body.length) :
    Served conn r (recvBodyOf env (afterHeader conn r) (atBody conn r)) := by
  have hlen := h.length_received
  have hhead := h.head plainEnv
  have hget : httpMapGet (r.dict HTTP_DEFAULT_HEADERS_COUNT) (ascii "Content-Length") = some v := by
    rw [httpMapGet_dict h.wellFormed _ (by decide)]
    exact hv
  obtain ⟨data, hdata, hrecv⟩ :=
    httpRecvBody_of_lt env (afterHeader conn r) hget hn hlen.1 hlt hfits
  have hall : (headerReceived conn r.head.length).drop r.head.length ++ data = r.body := by
    rw [hdata, afterHeader, hhead.delivered_rest, hhead.bodybuf_eq hlt]
    refine h.eq_body ?_ (List.take_prefix ..)
    rw [h.delivered_eq, List.drop_left, List.take_left]
  rw [recvBodyOf, atBody, hrecv, hall]
  refine ⟨_, _, rfl, delivered_of_dict h.wellFormed rfl ?_ rfl, ?_⟩
  · rw [HttpContent.load_bodybuf rfl (by omega), if_pos le_rfl, List.take_length]
  · exact h.incoming_after (by omega)

/-- **The next request is received**, and nothing behind it is taken.  The three
cases are those of its body: none, one that came with the header, and one that
is to be received. -/
theorem Next.served (env : RecvEnv) (hr : Framed r) :
    Served conn r (httpRecvRequest env conn) := by
  rw [httpRecvRequest_eq h.aligned.first (h.head env)]
  rcases hr.header with ⟨hv, hbody⟩ | ⟨v, hv, hn, hfits⟩
  · exact h.recv_none env hbody fun v hsome => absurd (hv.symm.trans hsome) (by simp)
  · have hlen := h.length_received
    by_cases hle : r.head.length + r.body.length ≤ (headerReceived conn r.head.length).length
    · by_cases hpos : 0 < r.body.length
      · exact h.recv_of_le env hv hn hpos hle
      · refine h.recv_none env (List.length_eq_zero_iff.1 (by omega)) fun v' hsome => ?_
        obtain rfl := Option.some.inj (hv.symm.trans hsome)
        omega
    · exact h.recv_of_lt env hv hn hfits (not_le.1 hle)

end Call

/-! ### Runs -/

/-- The chunks fit each of the requests, one after the other. -/
def AlignedRun : List Request → List Bytes → Prop
  | [], _ => True
  | r :: rs, cs => Aligned r cs ∧ AlignedRun rs (after r.bytes.length cs)

/-- It is enough that no chunk holds bytes of two requests: the chunks in which
a header ends are then those of its own request. -/
theorem alignedRun_of_separate {parts : List (Request × List Bytes)} {cs : List Bytes}
    (h : ∀ p ∈ parts, p.2.flatten = p.1.bytes ∧ ∀ c ∈ p.2, 3 ≤ c.length) :
    AlignedRun (parts.map Prod.fst) ((parts.map Prod.snd).flatten ++ cs) := by
  induction parts with
  | nil => trivial
  | cons p parts ih =>
    obtain ⟨r, as⟩ := p
    obtain ⟨hbytes, hlong⟩ := h _ (List.mem_cons_self ..)
    simp only at hbytes hlong
    have hne : ∀ c ∈ as, c ≠ [] := fun c hc he => by
      have := hlong c hc
      rw [he] at this
      exact absurd this (by decide)
    have hfour := length_head_ge r
    have hlen : as.flatten.length = r.head.length + r.body.length := by
      rw [hbytes, Request.bytes, List.length_append]
    simp only [List.map_cons, List.flatten_cons, List.append_assoc]
    refine ⟨⟨fun c hc => ?_, ?_⟩, ?_⟩
    · cases as with
      | nil => simp at hlen; omega
      | cons a as =>
        obtain rfl : a = c := Option.some.inj hc
        exact .inr (hlong a (List.mem_cons_self ..))
    · have hreach : reach r.head.length (as ++ ((parts.map Prod.snd).flatten ++ cs)) ≤
          as.flatten.length := Lib.reach_append_le (by omega) (by omega)
      rw [← hbytes]
      omega
    · rw [← hbytes, Lib.after_append hne]
      exact ih fun q hq => h q (List.mem_cons_of_mem _ hq)

/-- A call on a stream that is over returns `NULL`.  The loop of the frontend
ends by that. -/
theorem httpRecvRequest_over (env : RecvEnv) {conn : HttpConnection}
    (hd : delivered conn.handle.incoming = []) :
    ∃ conn', httpRecvRequest env conn = .ok ⟨none, conn', none⟩ := by
  have hno : indexOf CRLFCRLF ((delivered conn.handle.incoming).take HTTP_MAX_BUFFER_SIZE) =
      none := by
    rw [hd]
    decide
  have hok : FirstChunkOk conn.handle.incoming := fun c hc => .inl <| by
    by_contra hne
    rw [List.eq_cons_of_mem_head? hc, Lib.delivered_cons hne] at hd
    exact hne (List.append_eq_nil_iff.1 hd).1
  obtain ⟨q, hq, hret, -⟩ := httpRecvHeaders_notFound hok hno
  exact ⟨q.conn, by rw [httpRecvRequest, hq]; simp only; rw [if_pos (by omega)]⟩

/-- **The requests of a connection are returned in order**, each with its own
method, URL, headers and body, and then nothing: for every list of framed
requests, and every division of their bytes into chunks such that each request
starts with three bytes and the receive that completes its header brings nothing
of the next one. -/
theorem recvRequests_pipeline {rs : List Request} {envs : List RecvEnv} {conn : HttpConnection}
    (henvs : rs.length ≤ envs.length)
    (hrs : ∀ r ∈ rs, r.WellFormed ∧ Framed r ∧ r.head.length ≤ HTTP_MAX_BUFFER_SIZE)
    (hstream : delivered conn.handle.incoming = (rs.map Request.bytes).flatten)
    (halign : AlignedRun rs conn.handle.incoming) : ReturnsAll conn envs rs := by
  induction rs generalizing envs conn with
  | nil =>
    cases envs with
    | nil => exact ⟨[], conn, rfl, .nil⟩
    | cons env envs =>
      obtain ⟨conn', hrecv⟩ := httpRecvRequest_over env hstream
      refine ⟨[], conn', ?_, .nil⟩
      rw [recvRequests, hrecv]
  | cons r rs ih =>
    obtain ⟨env, envs, rfl⟩ : ∃ env envs', envs = env :: envs' :=
      List.exists_cons_of_length_pos (by simp at henvs; omega)
    obtain ⟨hwf, hframed, hfits⟩ := hrs r (List.mem_cons_self ..)
    rw [List.map_cons, List.flatten_cons] at hstream
    have hnext : Next conn r (rs.map Request.bytes).flatten := ⟨hwf, hfits, hstream, halign.1⟩
    obtain ⟨req, conn', hrecv, hdelivered, hafter⟩ := hnext.served env hframed
    have hrest : delivered conn'.handle.incoming = (rs.map Request.bytes).flatten := by
      rw [hafter, Lib.delivered_after (by rw [hstream, List.length_append]; omega), hstream,
        List.drop_left]
    obtain ⟨reqs, conn'', hrun, hall⟩ := ih (Nat.le_of_succ_le_succ henvs)
      (fun q hq => hrs q (List.mem_cons_of_mem _ hq)) hrest (by rw [hafter]; exact halign.2)
    refine ⟨req :: reqs, conn'', ?_, .cons hdelivered hall⟩
    rw [recvRequests, hrecv]
    simp only [hrun]

/-- A request without a body. -/
def getRequest : Request where
  method := ascii "GET"
  url := ascii "/"
  version := ascii "HTTP/1.1"
  fields := [⟨ascii "Host", ascii " ", ascii "a", []⟩]
  body := []

/-- A request with a body of five bytes. -/
def putRequest : Request where
  method := ascii "PUT"
  url := ascii "/"
  version := ascii "HTTP/1.1"
  fields := [⟨ascii "Content-Length", ascii " ", ascii "5", []⟩]
  body := ascii "abcde"

/-- The first request of the example can be received. -/
theorem getRequest_ok :
    getRequest.WellFormed ∧ Framed getRequest ∧ getRequest.head.length ≤ HTTP_MAX_BUFFER_SIZE := by
  refine ⟨⟨by decide, by decide, by decide, by decide, by decide, fun f hf => ?_⟩,
    .inl ⟨rfl, by decide⟩, by decide⟩
  obtain rfl := List.mem_singleton.1 hf
  constructor <;> decide

/-- So can the second. -/
theorem putRequest_ok :
    putRequest.WellFormed ∧ Framed putRequest ∧ putRequest.head.length ≤ HTTP_MAX_BUFFER_SIZE := by
  refine ⟨⟨by decide, by decide, by decide, by decide, by decide, fun f hf => ?_⟩,
    .inr ⟨by decide, ⟨_, List.mem_singleton.2 rfl, rfl⟩, fun f hf _ => ?_⟩, by decide⟩
  · obtain rfl := List.mem_singleton.1 hf
    constructor <;> decide
  · obtain rfl := List.mem_singleton.1 hf
    exact ⟨by decide, by decide +kernel, by decide⟩

/-- The hypotheses are satisfiable: the end of the body comes with the next
request. -/
theorem recvRequests_pipeline_two :
    ReturnsAll (connectionOf [putRequest.head ++ ascii "ab", ascii "cde" ++ getRequest.bytes])
      [plainEnv, plainEnv, plainEnv] [putRequest, getRequest] := by
  refine recvRequests_pipeline (by decide) (fun r hr => ?_) (by decide) ⟨⟨fun c hc => ?_, ?_⟩,
    ⟨fun c hc => ?_, ?_⟩, trivial⟩
  · rcases List.mem_pair.1 hr with rfl | rfl
    · exact putRequest_ok
    · exact getRequest_ok
  · obtain rfl : putRequest.head ++ ascii "ab" = c := Option.some.inj hc
    decide
  · decide
  · obtain rfl : getRequest.bytes = c := Option.some.inj hc
    decide
  · decide

/-- Two requests in one chunk: the second one is received with the header of the
first, goes with its content and is lost. -/
theorem recvRequests_shared_chunk :
    (∀ r ∈ [getRequest, getRequest],
      r.WellFormed ∧ Framed r ∧ r.head.length ≤ HTTP_MAX_BUFFER_SIZE) ∧
    (∀ c ∈ [getRequest.bytes ++ getRequest.bytes], 4 ≤ c.length) ∧
    [getRequest.bytes ++ getRequest.bytes].flatten =
      ([getRequest, getRequest].map Request.bytes).flatten ∧
    ¬ReturnsAll (connectionOf [getRequest.bytes ++ getRequest.bytes]) [plainEnv, plainEnv]
      [getRequest, getRequest] := by
  refine ⟨fun r hr => ?_, by decide, by decide, ?_⟩
  · obtain rfl : r = getRequest := by simpa using hr
    exact getRequest_ok
  · rintro ⟨reqs, conn', hrun, hall⟩
    have hone : (recvRequests (connectionOf [getRequest.bytes ++ getRequest.bytes])
        [plainEnv, plainEnv]).toOption.map (fun p => p.1.length) = some 1 := by decide
    rw [hrun] at hone
    have hlen : reqs.length = 1 := Option.some.inj hone
    have htwo := hall.length_eq
    rw [hlen] at htwo
    exact absurd htwo (by decide)

end Mpm
end Dukserver
