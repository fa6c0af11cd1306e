/-
# A message from end to end

What one side of a connection builds and sends, the other side receives
(`libhttpd/http_sendrecv.c`, both directions).  The header block of the sender is one
that the receiver finds and reads back (`Readable`), `Content-Length` is the number of
bytes behind it, and these are what the program wrote, so a receive that starts with
the block returns its entries and these bytes, in memory or in the temporary file, and
takes exactly this message from the connection (`recvBodyOf_holds`), however the network
has cut it.
-/

import Dukserver.Http.RoundTrip

namespace Dukserver
namespace Http

open Lib (Bytes ascii atoi cstr delivered after reach indexOf sprintfD)

/-- What the entries of a header say about the length of the body; without
`Content-Length` there is none. -/
def AnnouncesLength (dict : HttpMap) (n : ℕ) : Prop :=
  match httpMapGet dict (ascii "Content-Length") with
  | none => n = 0
  | some v => Lib.Numeral v n

/-! ### Sockets that accept what they are given -/

/-- Every `send` of a block takes all of it. -/
def Socket.Eager (h : Socket) : Prop := ∀ a ∈ h.accepts, HTTP_MAX_SEND_BLOCK ≤ a

section Eager

variable {h : Socket} {pieces : List Bytes} {buffer : Bytes} {n : ℕ}

/-- Sending receives nothing. -/
@[simp] theorem socketSends_incoming (h : Socket) (pieces : List Bytes) :
    (socketSends h pieces).incoming = h.incoming := by
  induction pieces generalizing h with
  | nil => rfl
  | cons data pieces ih => exact ih (socketSend h data).2

/-- A socket that accepts everything goes on doing so. -/
theorem Socket.Eager.sends (he : h.Eager) (pieces : List Bytes) : (socketSends h pieces).Eager := by
  induction pieces generalizing h with
  | nil => exact he
  | cons data pieces ih => exact ih fun a ha => he a (List.mem_of_mem_tail ha)

/-- No block is longer than `HTTP_MAX_SEND_BLOCK`.  So a socket that accepts
that many bytes at a time takes each block whole. -/
theorem length_le_of_mem_sendBlocks {data : Bytes} (hmem : data ∈ sendBlocks n buffer) :
    data.length ≤ HTTP_MAX_SEND_BLOCK := by
  induction n generalizing buffer with
  | zero => cases hmem
  | succ n ih =>
    unfold sendBlocks at hmem
    split_ifs at hmem
    · cases hmem
    · rcases List.mem_cons.1 hmem with rfl | hmem
      · simp
      · exact ih hmem

/-- **A header block and a body go out whole** on such a socket.  Each is sent
by calls that ask for no more than `HTTP_MAX_SEND_BLOCK` bytes, and none of
these is cut short. -/
theorem Socket.Eager.sent_message (he : h.Eager) {head : Bytes}
    (hhead : head.length ≤ HTTP_MAX_SEND_BLOCK) (body : Bytes) :
    (socketSends h (head :: sendBlocks body.length body)).sent = h.sent ++ (head ++ body) := by
  have hpieces : (head :: sendBlocks body.length body).flatten = head ++ body := by
    rw [List.flatten_cons, flatten_sendBlocks le_rfl]
  rw [← hpieces, socketSends_iff]
  intro p hp
  have hdata : p.2.length ≤ HTTP_MAX_SEND_BLOCK := by
    rcases List.mem_cons.1 (List.of_mem_zip hp).2 with hp | hp
    · rwa [hp]
    · exact length_le_of_mem_sendBlocks hp
  exact hdata.trans (he _ (List.of_mem_zip hp).1)

end Eager

/-! ### Header blocks that are read back -/

/-- A header block that ends with its first CRLFCRLF, fits the header buffer and
parses to `entries`, whatever lies behind it. -/
structure Readable (type : HttpParseType) (head : Bytes) (entries : List (Bytes × Option Bytes)) :
    Prop where
  fits : head.length ≤ HTTP_MAX_BUFFER_SIZE
  ends : indexOf CRLFCRLF head = some (head.length - 4)
  parses : ∀ rest c, ∃ dict,
    httpParseLines type (head ++ rest) head.length (httpMapNew c) = (true, dict) ∧
      dict.values = entries

/-- A received message: its entries, with the name of the temporary file behind
them if the body does not fit the buffers, and its body, in memory or in that
file. -/
def Received.Holds (r : Received) (env : RecvEnv) (entries : List (Bytes × Option Bytes))
    (body : Bytes) : Prop :=
  ∃ ct, r.content = some ct ∧ ct.body.size = body.length ∧
    if body.length ≤ HTTP_MAX_BUFFER_SIZE then
      ct.dict.values = entries ∧ ct.load ct.body = .ok body ∧ r.tmpfile = none
    else
      ct.dict.values = entries ++ [(HTTP_TMPFILE, some (cstr env.tmpfilename))] ∧
        r.tmpfile = some body

section Receive

variable {type : HttpParseType} {env : RecvEnv} {conn : HttpConnection} {h : ℕ}
  {dict : HttpMap} {head body : Bytes} {entries : List (Bytes × Option Bytes)}

/-- A header block has at least the four bytes at its end. -/
theorem Readable.four (hr : Readable type head entries) : 4 ≤ head.length := by
  have hle := Lib.indexOf_le CRLFCRLF_ne_nil hr.ends
  rw [length_CRLFCRLF] at hle
  omega

/-- A stream that starts with the block has it as its header: the first CRLFCRLF
of the stream is the one at its end. -/
theorem Readable.exists_head (hr : Readable type head entries) {rest : Bytes}
    (hstream : delivered conn.handle.incoming = head ++ rest) (env : RecvEnv) :
    ∃ dict, Head type env conn head.length dict ∧ dict.values = entries := by
  have hfour := hr.four
  have hfits := hr.fits
  have hfound : indexOf CRLFCRLF ((delivered conn.handle.incoming).take HTTP_MAX_BUFFER_SIZE) =
      some (head.length - 4) := by
    rw [Lib.indexOf_take CRLFCRLF_ne_nil, hstream]
    refine ⟨Lib.indexOf_append CRLFCRLF_ne_nil hr.ends, ?_⟩
    rw [length_CRLFCRLF]
    omega
  have hreach := Lib.le_reach (show head.length ≤ (delivered conn.handle.incoming).length by
    rw [hstream, List.length_append]; omega)
  obtain ⟨dict, hparse, hvalues⟩ := hr.parses
    (rest.take (min (reach head.length conn.handle.incoming) HTTP_MAX_BUFFER_SIZE - head.length) ++
      env.uninit) HTTP_DEFAULT_HEADERS_COUNT
  refine ⟨dict, ⟨⟨head.length - 4, by omega, hfound⟩, ?_⟩, hvalues⟩
  rw [headerReceived, hstream, List.take_append,
    List.take_of_length_le (show head.length ≤ min (reach head.length conn.handle.incoming)
      HTTP_MAX_BUFFER_SIZE by omega), List.append_assoc]
  exact hparse

/-- Without a bound file, the length that is set is the number of bytes that
were written. -/
theorem announcesLength_buffer {files : Bytes → Option Bytes} {ct : HttpContent} {data : Bytes}
    {n : ℕ} (hfile : httpMapGet ct.dict HTTP_SENDFILE = none)
    (hlength : httpMapGet ct.dict (ascii "Content-Length") = none) (hw : Written ct data) :
    AnnouncesLength (announceLength files ct).dict n ↔ data.length = n := by
  rw [AnnouncesLength, announceLength, hfile]
  simp only
  by_cases hpos : 0 < ct.bodybuf.size
  · rw [if_pos hpos, httpHeader, httpMapGet_set_self rfl, hw.size]
    exact Lib.numeral_sprintfD_iff.trans (by omega)
  · rw [if_neg hpos, hlength]
    have hsize := hw.size
    show n = 0 ↔ _
    omega

/-- What is announced is read as a number.  `atoi` is exact below `2 ^ 31`, and
a content without a body announces no length. -/
theorem AnnouncesLength.get {n : ℕ} (hn : AnnouncesLength dict n) (hlt : n < 2 ^ 31) :
    httpMapGet dict (ascii "Content-Length") = none ∧ n = 0 ∨
      ∃ v, httpMapGet dict (ascii "Content-Length") = some v ∧ atoi v = n := by
  rw [AnnouncesLength] at hn
  cases hv : httpMapGet dict (ascii "Content-Length") with
  | none =>
    rw [hv] at hn
    exact .inl ⟨rfl, hn⟩
  | some v =>
    rw [hv] at hn
    exact .inr ⟨v, rfl, Lib.atoi_of_numeral hn hlt⟩

/-- **A body that is announced and comes behind its header is received**, and
exactly the message is taken from the connection. -/
theorem recvBodyOf_holds (conn₁ : HttpConnection) (hd : Head type env conn h dict)
    (hincoming : conn₁.handle.incoming = after (headerReceived conn h).length conn.handle.incoming)
    (hstream : (delivered conn.handle.incoming).drop h = body)
    (hn : AnnouncesLength dict body.length) (hlt : body.length < 2 ^ 31)
    (hopen : HTTP_MAX_BUFFER_SIZE < body.length → env.fopenOk = true)
    (htmp : HTTP_TMPFILE ∉ dict.keys) :
    ∃ r, recvBodyOf env conn₁ (parsed (headerReceived conn h) h dict) = .ok r ∧
      r.Holds env dict.values body ∧ r.conn = { conn₁ with handle := { conn₁.handle with
        incoming := after (h + body.length) conn.handle.incoming } } := by
  have hbounds := hd.bounds
  have hlen := hd.length_received
  have hbody : body.length = (delivered conn.handle.incoming).length - h := by
    rw [← hstream, List.length_drop]
  have hrest : ∀ k, (headerReceived conn h).length + k = h + body.length →
      after k conn₁.handle.incoming = after (h + body.length) conn.handle.incoming := by
    intro k hk
    rw [hincoming, Lib.after_after (by omega), hk]
  have hsame : (headerReceived conn h).length = h + body.length → conn₁ =
      { conn₁ with handle := { conn₁.handle with
        incoming := after (h + body.length) conn.handle.incoming } } := by
    intro hk
    rw [← hrest 0 hk, Lib.after_zero]
  have hsize := @size_body_parsed (headerReceived conn h) h dict (by omega)
  have hload := @load_body_parsed (headerReceived conn h) h dict (by omega)
  rw [hd.drop_received, hstream] at hsize hload
  by_cases hzero : body.length = 0
  · -- nothing is announced, and nothing came
    have hnone : ∀ v, httpMapGet dict (ascii "Content-Length") = some v → atoi v ≤ 0 := by
      intro v hv
      rcases hn.get hlt with ⟨hnone, -⟩ | ⟨w, hw, hatoi⟩
      · rw [hv] at hnone
        cases hnone
      · obtain rfl := Option.some.inj (hv.symm.trans hw)
        omega
    obtain rfl := List.length_eq_zero_iff.1 hzero
    rw [recvBodyOf, httpRecvBody_of_none env conn₁ hnone]
    refine ⟨_, rfl, ⟨_, rfl, ?_, ?_⟩, hsame (by simp only [List.length_nil] at hbody ⊢; omega)⟩
    · rw [hsize, List.take_nil]
    · rw [if_pos (by simp)]
      exact ⟨rfl, by rw [hload, List.take_nil], rfl⟩
  · obtain ⟨v, hv, hatoi⟩ := (hn.get hlt).resolve_left fun h => hzero h.2
    by_cases hle : h + body.length ≤ (headerReceived conn h).length
    · -- the body came with its header
      have hfits : body.length ≤ HTTP_MAX_BUFFER_SIZE := by omega
      rw [recvBodyOf, httpRecvBody_of_le env conn₁ hv hatoi (by omega) hle]
      refine ⟨_, rfl, ⟨_, rfl, rfl, ?_⟩, hsame (by omega)⟩
      rw [if_pos hfits]
      refine ⟨rfl, ?_, rfl⟩
      rw [load_body_take dict (by omega) hle, hd.drop_received, hstream, List.take_take,
        List.take_of_length_le (by omega)]
    · have hbuf := hd.bodybuf_eq (not_le.1 hle)
      have hdrop : delivered conn₁.handle.incoming =
          (delivered conn.handle.incoming).drop (headerReceived conn h).length := by
        rw [hincoming, Lib.delivered_after (by omega)]
      rw [hstream, List.take_length, ← hdrop] at hbuf
      by_cases hfits : body.length ≤ HTTP_MAX_BUFFER_SIZE
      · obtain ⟨data, hdata, hrecv⟩ :=
          httpRecvBody_of_lt env conn₁ hv hatoi (by omega) (not_le.1 hle) hfits
        rw [← hdata] at hbuf
        rw [recvBodyOf, hrecv, hbuf]
        refine ⟨_, rfl, ⟨_, rfl, rfl, ?_⟩, ?_⟩
        · rw [if_pos hfits]
          exact ⟨rfl, by rw [HttpContent.load_bodybuf rfl (by omega), if_pos le_rfl,
            List.take_length], rfl⟩
        · rw [HttpConnection.after, hrest _ (by omega)]
      · obtain ⟨data, hdata, hrecv⟩ := httpRecvBody_file env conn₁ hv hatoi (by omega)
          (not_le.1 hle) (not_le.1 hfits) (hopen (not_le.1 hfits))
        rw [← hdata] at hbuf
        rw [recvBodyOf, hrecv, hbuf]
        refine ⟨_, rfl, ⟨_, rfl, rfl, ?_⟩, ?_⟩
        · rw [if_neg hfits]
          exact ⟨Lib.Assoc.set_of_not_mem htmp, rfl⟩
        · rw [HttpConnection.after, hrest _ (by omega)]

/-- **A response is received by its header and its body**, as a request is, but
without an interim answer. -/
theorem httpRecvResponse_eq (hok : FirstChunkOk conn.handle.incoming)
    (hd : Head .response env conn h dict) :
    httpRecvResponse env conn =
      recvBodyOf env (conn.after (headerReceived conn h).length)
        (parsed (headerReceived conn h) h dict) := by
  have hlen := hd.length_received
  obtain ⟨i, rfl, hi⟩ := hd.found
  obtain ⟨scans, -, hr⟩ := httpRecvHeaders_found hok hi
  have hparsed : httpParseResponseHeaders ((withHeader (headerReceived conn (i + 4))
      (i + 4)).headerbuf.buf ++ env.uninit)
      (withHeader (headerReceived conn (i + 4)) (i + 4)).header.size.toNat
      (withHeader (headerReceived conn (i + 4)) (i + 4)).dict = (true, dict) := hd.parsed
  rw [hlen, httpRecvResponse, hr]
  rw [headerReceived] at hparsed
  simp only
  rw [if_neg (by omega), if_neg (by simp [withHeader]), hparsed]
  rfl

/-- What the client receives of a message that comes alone. -/
theorem httpRecvResponse_holds (env : RecvEnv) (hr : Readable .response head entries)
    (hok : FirstChunkOk conn.handle.incoming)
    (hstream : delivered conn.handle.incoming = head ++ body)
    (hn : AnnouncesLength ⟨0, entries⟩ body.length) (hlt : body.length < 2 ^ 31)
    (hopen : HTTP_MAX_BUFFER_SIZE < body.length → env.fopenOk = true)
    (htmp : HTTP_TMPFILE ∉ entries.map Prod.fst) :
    ∃ r, httpRecvResponse env conn = .ok r ∧ r.Holds env entries body ∧
      r.conn = conn.after (head.length + body.length) := by
  obtain ⟨dict, hd, rfl⟩ := hr.exists_head hstream env
  rw [httpRecvResponse_eq hok hd]
  exact recvBodyOf_holds _ hd rfl (by rw [hstream, List.drop_left]) hn hlt hopen htmp

/-- What the server receives of a message that comes alone, and what it answers
to the header. -/
theorem httpRecvRequest_holds (env : RecvEnv) (hr : Readable .request head entries)
    (hok : FirstChunkOk conn.handle.incoming)
    (hstream : delivered conn.handle.incoming = head ++ body)
    (hn : AnnouncesLength ⟨0, entries⟩ body.length) (hlt : body.length < 2 ^ 31)
    (hopen : HTTP_MAX_BUFFER_SIZE < body.length → env.fopenOk = true)
    (htmp : HTTP_TMPFILE ∉ entries.map Prod.fst) :
    ∃ r, httpRecvRequest env conn = .ok r ∧ r.Holds env entries body ∧
      r.conn = (expectContinue ⟨0, entries⟩ conn).after (head.length + body.length) := by
  obtain ⟨dict, hd, rfl⟩ := hr.exists_head hstream env
  have hexpect : ∀ n, expectContinue dict (conn.after n) =
      (expectContinue ⟨0, dict.values⟩ conn).after n := by
    intro n
    have hget : httpMapGet ⟨0, dict.values⟩ (ascii "Expect") =
      httpMapGet dict (ascii "Expect") := rfl
    rw [expectContinue, expectContinue, hget]
    cases httpMapGet dict (ascii "Expect") with
    | none => rfl
    | some v =>
      simp only
      split_ifs <;> rfl
  rw [httpRecvRequest_eq hok hd, hexpect]
  obtain ⟨r, hrecv, hholds, hconn⟩ := recvBodyOf_holds
    ((expectContinue ⟨0, dict.values⟩ conn).after (headerReceived conn head.length).length) hd
    (by rw [← hexpect, expectContinue_incoming]; rfl) (by rw [hstream, List.drop_left]) hn hlt
    hopen htmp
  refine ⟨r, hrecv, hholds, ?_⟩
  rw [hconn, HttpConnection.after, HttpConnection.after, expectContinue_incoming]

end Receive

/-! ### What is built -/

section Entries

variable {m : HttpMap} {k : Bytes} {line : List (Bytes × Option Bytes)}

/-- The headers are looked up as in the dictionary: the entries that are left
out have other keys. -/
theorem lookup_headers (hk : ¬Internal k) : (headers m).lookup k = m.values.lookup k := by
  obtain ⟨c, l⟩ := m
  rw [headers]
  induction l with
  | nil => rfl
  | cons p l ih =>
    by_cases hp : Internal p.1
    · have hne : k ≠ p.1 := fun he => hk (he ▸ hp)
      rw [List.filter_cons_of_neg (by simpa using hp), ih]
      exact (Lib.Assoc.lookup_cons_of_ne hne).symm
    · rw [List.filter_cons_of_pos (by simpa using hp)]
      by_cases he : k = p.1
      · rw [he]
        exact List.lookup_cons_self.trans List.lookup_cons_self.symm
      · exact (Lib.Assoc.lookup_cons_of_ne he).trans
          (ih.trans (Lib.Assoc.lookup_cons_of_ne he).symm)

/-- So they are when the entries of a first line stand before them. -/
theorem httpMapGet_entries (hline : ∀ j ∈ line.map Prod.fst, Internal j) (c : ℕ)
    (hk : ¬Internal (cstr k)) : httpMapGet ⟨c, line ++ headers m⟩ k = httpMapGet m k := by
  have hnone : line.lookup (cstr k) = none :=
    Lib.Assoc.lookup_eq_none.2 fun hmem => hk (hline _ hmem)
  rw [httpMapGet, httpMapGet, List.lookup_append, hnone, Option.none_or, lookup_headers hk]

/-- An internal name is only in the first line.  The headers of a message are
the entries whose names do not start with a space. -/
theorem not_mem_keys_entries (hk : Internal k) (hline : k ∉ line.map Prod.fst) :
    k ∉ (line ++ headers m).map Prod.fst := by
  rw [List.map_append, List.mem_append, not_or]
  refine ⟨hline, fun hmem => ?_⟩
  obtain ⟨p, hp, rfl⟩ := List.mem_map.1 hmem
  have hnot := (List.mem_filter.1 hp).2
  rw [Bool.not_eq_true', decide_eq_false_iff_not] at hnot
  exact hnot hk

end Entries

/-- The client builds a request that the server reads, leaves `Content-Length`
to `http_send_request` and nothing behind that it wrote. -/
structure RequestOk (files : Bytes → Option Bytes) (conn : HttpConnection)
    (calls : List RequestCall) : Prop where
  readable : ∀ call ∈ calls, RequestCallOk call
  started : ∃ method url, .start (some method, some url) ∈ calls
  host : ValueOk conn.host
  names : ∀ k v, .header k v ∈ calls → cstr k ≠ ascii "Content-Length"
  last : WrittenLast calls
  size : (written calls).length < 2 ^ 31
  fits : ∀ ct head, preparedRequest files conn (buildRequest calls) = some ct →
    requestHead ct = some head → head.length ≤ HTTP_MAX_BUFFER_SIZE

/-- The server builds a response that the client reads and leaves
`Content-Length` to `http_send_response`. -/
structure ResponseOk (calls : List ResponseCall) : Prop where
  readable : ∀ call ∈ calls, ResponseCallOk call
  started : ∃ date status, .start (date, status) ∈ calls
  names : ∀ k v, .header k v ∈ calls → cstr k ≠ ascii "Content-Length"
  size : (written calls).length < 2 ^ 31
  fits : ∀ version status, httpMapGet (buildResponse calls).dict HTTP_VERSION = some version →
    httpMapGet (buildResponse calls).dict HTTP_STATUS = some status →
    (headerBlock version status (completeResponse (atoi status) (buildResponse calls)).dict).length
      ≤ HTTP_MAX_BUFFER_SIZE

/-- A message as it is sent: its header block, with the entries it is read as,
and its body, whose length the block announces. -/
structure Message (type : HttpParseType) (head : Bytes) (entries : List (Bytes × Option Bytes))
    (body : Bytes) : Prop where
  readable : Readable type head entries
  announced : AnnouncesLength ⟨0, entries⟩ body.length
  size : body.length < 2 ^ 31
  tmpfile : HTTP_TMPFILE ∉ entries.map Prod.fst

/-- The entries with which a request is received. -/
def RequestEntries (files : Bytes → Option Bytes) (conn : HttpConnection)
    (calls : List RequestCall) (entries : List (Bytes × Option Bytes)) : Prop :=
  ∃ ct method url, preparedRequest files conn (buildRequest calls) = some ct ∧
    httpMapGet ct.dict HTTP_METHOD = some method ∧ httpMapGet ct.dict HTTP_URL = some url ∧
    httpMapGet ct.dict HTTP_VERSION = some (ascii "HTTP/1.1") ∧
    entries = lineEntries method url (ascii "HTTP/1.1") ++ headers ct.dict

/-- The first three entries of a response that is received. -/
def statusEntries (status : Bytes) : List (Bytes × Option Bytes) :=
  [(HTTP_VERSION, some (ascii "1.1")), (HTTP_STATUS, some status),
    (HTTP_MESSAGE, some (httpGetStatusMessage (atoi status)))]

/-- The entries with which a response is received, and its body. -/
def ResponseIs (calls : List ResponseCall) (entries : List (Bytes × Option Bytes))
    (body : Bytes) : Prop :=
  ∃ status, httpMapGet (buildResponse calls).dict HTTP_STATUS = some status ∧
    entries = statusEntries status ++
      headers (completeResponse (atoi status) (buildResponse calls)).dict ∧
    body = sentBody (atoi status) (written calls)

section Sent

variable {files : Bytes → Option Bytes} {conn conn' : HttpConnection}

/-- Only the host of the connection matters. -/
theorem preparedRequest_congr (h : conn.host = conn'.host) (ct : HttpContent) :
    preparedRequest files conn ct = preparedRequest files conn' ct := by
  simp only [preparedRequest, preprocessRequest, h]

/-- So what can be sent to one peer can be sent to another of that host. -/
theorem RequestOk.congr {calls : List RequestCall} (h : RequestOk files conn calls)
    (hhost : conn.host = conn'.host) : RequestOk files conn' calls :=
  { h with
    host := hhost ▸ h.host
    fits := fun ct head hprepared => h.fits ct head (by
      rw [preparedRequest_congr hhost, hprepared]) }

/-- The header block of a response ends with its first CRLFCRLF, as no text in
it has CR. -/
theorem indexOf_headerBlock {m : HttpMap} {n : ℕ} (h : Sendable ResponseEntry m) :
    indexOf CRLFCRLF (headerBlock (ascii "HTTP/1.1") (sprintfD n) m) =
      some ((headerBlock (ascii "HTTP/1.1") (sprintfD n) m).length - 4) := by
  have hblock : headerBlock (ascii "HTTP/1.1") (sprintfD n) m =
      block (statusLine (ascii "HTTP/1.1") (sprintfD n) :: (fieldsOf m).map Field.line) := by
    rw [block_cons, ← headerLines_eq_block]
    simp [headerBlock, statusLine]
  rw [hblock]
  refine indexOf_block fun t ht => ?_
  rcases List.mem_cons.1 ht with rfl | ht
  · have hversion : 13 ∉ ascii "HTTP/1.1" := by decide
    have hblank : 13 ∉ ascii " " := by decide
    have hmessage : 13 ∉ httpGetStatusMessage (atoi (sprintfD n)) := fun hmem =>
      absurd ((httpGetStatusMessage_text _).2 13 hmem) (by decide)
    rw [statusLine]
    refine ⟨by simp [ascii], ?_⟩
    simp [hversion, hblank, hmessage, Lib.cr_notMem_sprintfD n]
  · obtain ⟨f, hf, rfl⟩ := List.mem_map.1 ht
    exact ⟨f.line_ne_nil, (h.wellFormed f hf).not_mem_line⟩

/-- **A request goes out as a message**, with what was written as its body: the
length that is announced is the length of the body, and no text ends the header
block early. -/
theorem RequestOk.sent {calls : List RequestCall} (h : RequestOk files conn calls) :
    ∃ head entries, RequestEntries files conn calls entries ∧
      Message .request head entries (written calls) ∧
      ∀ handle : Socket, ∃ ret ct, httpSendRequest files ⟨conn.host, conn.port, handle⟩
        (buildRequest calls) = .ok (ret, ⟨conn.host, conn.port,
          socketSends handle (head :: sendBlocks (written calls).length (written calls))⟩, ct) := by
  have hct := sendable_buildRequest h.readable
  have hkeys := mem_keys_buildRequest h.started
  have hw := written_buildRequest calls
  obtain ⟨method₀, url₀, version₀, hmethod₀, hurl₀, hversion₀, hwf₀, -⟩ :=
    requestHead_of_sendable hct hkeys
  obtain ⟨ct₁, hpre, hset, hsub⟩ := sendable_preprocessRequest hct hwf₀.slash hwf₀.url h.host
  obtain ⟨hbody₁, hbuf₁⟩ := preprocessRequest_buffers hpre
  have hw₁ : Written ct₁ (written calls) := ⟨by rw [hbuf₁, hw.buf], by rw [hbuf₁, hw.size]⟩
  have hsend : Sendable RequestEntry (announceLength files ct₁).dict :=
    sendable_announceLength hset hw₁
  have hkeys₁ : ∀ k ∈ firstLineKeys .request, k ∈ (announceLength files ct₁).dict.keys :=
    fun k hk => mem_keys_announceLength (hsub k (hkeys k hk))
  obtain ⟨method, url, version, hmethod, hurl, hversion, hwf, hhead⟩ :=
    requestHead_of_sendable hsend hkeys₁
  obtain rfl : version = ascii "HTTP/1.1" := by
    obtain ⟨v, hv, hentry⟩ := hsend.get (k := HTTP_VERSION) rfl (by decide) (hkeys₁ _ (by decide))
    obtain rfl := Option.some.inj (hv.symm.trans hversion)
    have hne : HTTP_VERSION ≠ HTTP_METHOD ∧ HTTP_VERSION ≠ HTTP_URL := by decide
    exact ((hentry.resolve_left fun h => hne.1 h.1).resolve_left fun h => hne.2 h.1).2
  have hprepared : preparedRequest files conn (buildRequest calls) =
      some (announceLength files ct₁) := by
    rw [preparedRequest, hurl₀]
    simp only [hpre]
  have hfits := h.fits _ _ hprepared hhead
  have hbuffers : (announceLength files ct₁).body = ct₁.body ∧
      (announceLength files ct₁).bodybuf = ct₁.bodybuf ∧ _ := announceLength_buffers _ _
  obtain ⟨body, hload, hlast, -⟩ := load_buildRequest (hbuffers.1.trans hbody₁)
    (hbuffers.2.1.trans hbuf₁)
  obtain rfl := hlast.2 h.last
  have hbody : requestBody files (announceLength files ct₁) = .ok (written calls) := by
    rw [requestBody, hsend.no_sendfile]
    exact hload
  have hlength := httpMapGet_preprocess (k := ascii "Content-Length") hpre (by decide) (by decide)
  rw [contentLength_buildRequest h.names] at hlength
  have hannounced : AnnouncesLength (announceLength files ct₁).dict (written calls).length :=
    (announcesLength_buffer hset.no_sendfile hlength hw₁).2 rfl
  have hline : ∀ l ∈ (Request.mk method url (ascii "HTTP/1.1")
      (fieldsOf (announceLength files ct₁).dict) []).lines, l ≠ [] ∧ 13 ∉ l := by
    intro l hl
    rcases List.mem_cons.1 hl with rfl | hl
    · exact ⟨Request.line_ne_nil _, hwf.not_mem_line⟩
    · obtain ⟨f, hf, rfl⟩ := List.mem_map.1 hl
      exact ⟨f.line_ne_nil, (hwf.fields f hf).not_mem_line⟩
  have hne : ∀ {k : Bytes} {v}, httpMapGet (buildRequest calls).dict k = some v →
      httpMapGet (buildRequest calls).dict k ≠ none := fun h he => by
    rw [h] at he
    cases he
  refine ⟨_, lineEntries method url (ascii "HTTP/1.1") ++ headers (announceLength files ct₁).dict,
    ⟨_, _, _, hprepared, hmethod, hurl, hversion, rfl⟩,
    ⟨⟨hfits, indexOf_block hline, fun rest c => ⟨_, httpParseLines_wire hwf c,
      values_dict_of_sendable hsend hwf⟩⟩, ?_, h.size, ?_⟩, fun handle => ?_⟩
  · rw [AnnouncesLength, httpMapGet_entries lineEntries_internal _ (by decide)]
    exact hannounced
  · exact not_mem_keys_entries (by decide) (show HTTP_TMPFILE ∉ [HTTP_METHOD, HTTP_URL,
      HTTP_VERSION] by decide)
  · obtain ⟨ret, heq⟩ := httpSendRequest_eq (hne hmethod₀) hurl₀ (hne hversion₀)
      (show preprocessRequest ⟨conn.host, conn.port, handle⟩ url₀ _ = .ok ct₁ from hpre) hhead hbody
    have hblock : HTTP_MAX_BUFFER_SIZE ≤ HTTP_MAX_SEND_BLOCK := by decide
    rw [if_neg (by omega)] at heq
    exact ⟨ret, _, heq⟩

/-- **What is sent is what the program has set**, but for the host and the
length. -/
theorem RequestOk.prepared {calls : List RequestCall} (h : RequestOk files conn calls) :
    ∃ ct, preparedRequest files conn (buildRequest calls) = some ct ∧
      Sendable RequestEntry ct.dict ∧
      ∀ k, cstr k ≠ ascii "Host" → cstr k ≠ ascii "Content-Length" →
        httpMapGet ct.dict k = httpMapGet (buildRequest calls).dict k := by
  have hct := sendable_buildRequest h.readable
  have hw := written_buildRequest calls
  obtain ⟨_, url, _, -, hurl, -, hwf, -⟩ :=
    requestHead_of_sendable hct (mem_keys_buildRequest h.started)
  obtain ⟨ct, hpre, hset, -⟩ := sendable_preprocessRequest hct hwf.slash hwf.url h.host
  obtain ⟨-, hbuf⟩ := preprocessRequest_buffers hpre
  refine ⟨announceLength files ct, ?_, sendable_announceLength hset
    (show Written ct (written calls) from ⟨by rw [hbuf, hw.buf], by rw [hbuf, hw.size]⟩),
    fun k hhost hlength => ?_⟩
  · rw [preparedRequest, hurl]
    simp only [hpre]
  · rw [httpMapGet_announceLength hlength]
    by_cases hk : cstr k = HTTP_URL
    · -- a URL with a leading slash is sent as it is
      rw [preprocessRequest, splitUrl_of_slash hwf.slash] at hpre
      obtain rfl := Except.ok.inj hpre
      have hsame : ∀ m, httpMapGet m k = httpMapGet m HTTP_URL := fun m => by
        rw [httpMapGet, httpMapGet, hk]
        rfl
      rw [hsame, hsame, hurl]
      simp only
      rw [httpMapGet_set_of_ne (by decide), httpMapGet_set_self rfl, Option.map_some,
        cstr_of_all hwf.url]
    · exact httpMapGet_preprocess hpre hk hhost

/-- Without a header of that name, `Content-Length` is left to
`http_send_response`. -/
theorem contentLength_buildResponse {calls : List ResponseCall}
    (hnames : ∀ k v, .header k v ∈ calls → cstr k ≠ ascii "Content-Length") :
    httpMapGet (buildResponse calls).dict (ascii "Content-Length") = none := by
  refine build_induction (P := fun ct => httpMapGet ct.dict (ascii "Content-Length") = none) rfl
    fun ct call hcall hct => ?_
  rcases call with ⟨date, status⟩ | ⟨k, v⟩ | data
  · simp only [Call.apply, httpStartResponse]
    rw [httpMapGet_set_of_ne (by decide), httpMapGet_set_of_ne (by decide),
      httpMapGet_set_of_ne (by decide), httpMapGet_set_of_ne (by decide),
      httpMapGet_set_of_ne (by decide), hct]
  · have hne := hnames k v hcall
    rw [Call.apply, httpHeader, httpMapGet_set_of_ne fun he => hne (by rw [← he]; decide), hct]
  · rw [Call.apply, httpWrite_dict, hct]

/-- **A response goes out as a message**, with what was written as its body, or
the default one. -/
theorem ResponseOk.sent {calls : List ResponseCall} (h : ResponseOk calls) :
    ∃ head entries body, ResponseIs calls entries body ∧ Message .response head entries body ∧
      ∀ conn : HttpConnection, ∃ ret ct, httpSendResponse conn (buildResponse calls) =
        .ok (ret, ⟨conn.host, conn.port,
          socketSends conn.handle (head :: sendBlocks body.length body)⟩, ct) := by
  have hdata := bodyWritten_buildResponse calls
  obtain ⟨hversion, n, hstatus⟩ := started_buildResponse h.readable h.started
  have hfits := h.fits _ _ hversion hstatus
  have hcomplete : BodyWritten (completeResponse (atoi (sprintfD n)) (buildResponse calls))
      (sentBody (atoi (sprintfD n)) (written calls)) ∧ _ := completeResponse_eq hdata
  have hsend : Sendable ResponseEntry
      (completeResponse (atoi (sprintfD n)) (buildResponse calls)).dict :=
    sendable_completeResponse (sendable_buildResponse h.readable) hdata
  have hblock : HTTP_MAX_BUFFER_SIZE ≤ HTTP_MAX_SEND_BLOCK := by decide
  have hsize : (sentBody (atoi (sprintfD n)) (written calls)).length < 2 ^ 31 := by
    rw [sentBody]
    split_ifs
    · decide
    · exact h.size
  have hstatusKeys : ∀ k ∈ (statusEntries (sprintfD n)).map Prod.fst, Internal k :=
    show ∀ k ∈ [HTTP_VERSION, HTTP_STATUS, HTTP_MESSAGE], Internal k by decide
  refine ⟨_, _, _, ⟨_, hstatus, rfl, rfl⟩, ⟨⟨hfits, indexOf_headerBlock hsend,
    httpParseResponse_of_sendable hsend⟩, ?_, hsize, ?_⟩, fun conn => ?_⟩
  · rw [AnnouncesLength, httpMapGet_entries hstatusKeys _ (by decide), hcomplete.2]
    split_ifs with hnil
    · rw [contentLength_buildResponse h.names, hnil]
      rfl
    · rw [httpMapGet_set_self rfl, Option.map_some, (valueOk_sprintfD _).cstr_eq]
      exact Lib.numeral_sprintfD _
  · exact not_mem_keys_entries (by decide) (show HTTP_TMPFILE ∉ [HTTP_VERSION, HTTP_STATUS,
      HTTP_MESSAGE] by decide)
  · rw [httpSendResponse_eq hstatus hversion rfl hcomplete.1.load, if_neg (by omega)]
    exact ⟨_, _, rfl⟩

end Sent

end Http
end Dukserver
