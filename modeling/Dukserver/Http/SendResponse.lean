/-
# Sending a response

`libhttpd/http_sendrecv.c`, `http_get_status_message`, `http_send_binary` (lines
249-270) and `http_send_response` (lines 632-719).  The header block goes out in
one `socket_send` and the body in blocks, and each call of `socket_send` returns
what its first successful `send` accepts.  Neither function looks at that number
before it goes on, so a short count leaves a hole in the stream
(`httpSendResponse_iff`).
-/

import Dukserver.Http.Connection
import Dukserver.Http.Response

namespace Dukserver
namespace Http

open Lib (Bytes ascii atoi sprintfD toInt32)

/-- `_status_msg_map`, the short messages. -/
def statusMsgMap : List (ℤ × Bytes) :=
  [(100, ascii "Continue"),
   (101, ascii "Switching Protocols"),
   (200, ascii "OK"),
   (201, ascii "Created"),
   (202, ascii "Accepted"),
   (203, ascii "Non-Authoritative Information"),
   (204, ascii "No Content"),
   (205, ascii "Reset Content"),
   (206, ascii "Partial Content"),
   (300, ascii "Multiple Choices"),
   (301, ascii "Moved Permanently"),
   (302, ascii "Found"),
   (303, ascii "See Other"),
   (304, ascii "Not Modified"),
   (305, ascii "Use Proxy"),
   (307, ascii "Temporary Redirect"),
   (400, ascii "Bad Request"),
   (401, ascii "Unauthorized"),
   (402, ascii "Payment Required"),
   (403, ascii "Forbidden"),
   (404, ascii "Not Found"),
   (405, ascii "Method Not Allowed"),
   (406, ascii "Not Acceptable"),
   (407, ascii "Proxy Authentication Required"),
   (408, ascii "Request Timeout"),
   (409, ascii "Conflict"),
   (410, ascii "Gone"),
   (411, ascii "Length Required"),
   (412, ascii "Precondition Failed"),
   (413, ascii "Request Entity Too Large"),
   (414, ascii "Request-URI Too Long"),
   (415, ascii "Unsupported Media Type"),
   (416, ascii "Requested Range Not Satisfiable"),
   (417, ascii "Expectation Failed"),
   (500, ascii "Internal Server Error"),
   (501, ascii "Not Implemented"),
   (502, ascii "Bad Gateway"),
   (503, ascii "Service Unavailable"),
   (504, ascii "Gateway Timeout"),
   (505, ascii "HTTP Version Not Supported")]

/-- `http_get_status_message`. -/
def httpGetStatusMessage (status : ℤ) : Bytes :=
  match statusMsgMap.lookup status with
  | some shortMsg => shortMsg
  | none =>
    match statusMsgMap.lookup 500 with
    | some shortMsg => shortMsg
    | none => (statusMsgMap.map Prod.snd).headD []

/-- The blocks of `http_send_binary`. -/
def sendBlocks : ℕ → Bytes → List Bytes
  | 0, _ => []
  | n + 1, p =>
    if p = [] then [] else p.take HTTP_MAX_SEND_BLOCK :: sendBlocks n (p.drop HTTP_MAX_SEND_BLOCK)

/-- Calls of `socket_send`, one after the other. -/
def socketSends (h : Socket) (pieces : List Bytes) : Socket :=
  pieces.foldl (fun h data => (socketSend h data).2) h

/-- `http_send_binary`: it goes on by what it asked for, and returns the length
of its buffer. -/
def httpSendBinary (h : Socket) (buffer : Bytes) : ℤ × Socket :=
  (buffer.length, socketSends h (sendBlocks buffer.length buffer))

/-- The lines of the headers. -/
def headerLines (dict : HttpMap) : Bytes :=
  (dict.values.map fun p => match p.2 with
    | none => []
    | some v => if p.1.head? = some 32 then [] else p.1 ++ ascii ": " ++ v ++ [13, 10]).flatten

/-- Entries without a value and internal ones have no line.  An internal one is
known by the space that its key starts with. -/
theorem headerLines_skip {c : ℕ} {k : Bytes} {v : Option Bytes} {l : List (Bytes × Option Bytes)}
    (h : v = none ∨ k.head? = some 32) : headerLines ⟨c, (k, v) :: l⟩ = headerLines ⟨c, l⟩ := by
  rw [headerLines, headerLines, List.map_cons, List.flatten_cons]
  rcases h with rfl | h
  · rfl
  · cases v with
    | none => rfl
    | some v => simp only [if_pos h, List.nil_append]

/-- The others have one each. -/
theorem headerLines_line {c : ℕ} {k v : Bytes} {l : List (Bytes × Option Bytes)}
    (h : k.head? ≠ some 32) :
    headerLines ⟨c, (k, some v) :: l⟩ = k ++ ascii ": " ++ v ++ 13 :: 10 :: headerLines ⟨c, l⟩ := by
  rw [headerLines, headerLines, List.map_cons, List.flatten_cons]
  simp only [if_neg h, List.append_assoc, List.cons_append, List.nil_append]

/-- Each entry has its own line. -/
theorem headerLines_append {c : ℕ} (a b : List (Bytes × Option Bytes)) :
    headerLines ⟨c, a ++ b⟩ = headerLines ⟨c, a⟩ ++ headerLines ⟨c, b⟩ := by
  simp only [headerLines, List.map_append, List.flatten_append]

/-- The header block. -/
def headerBlock (version status : Bytes) (dict : HttpMap) : Bytes :=
  version ++ ascii " " ++ status ++ ascii " " ++ httpGetStatusMessage (atoi status) ++ [13, 10] ++
    headerLines dict ++ [13, 10]

/-- The content that is sent: with a body if the status asks for one, and with
the length of its body. -/
def completeResponse (statusCode : ℤ) (ct : HttpContent) : HttpContent :=
  let ct := if (statusCode = 200 ∨ statusCode = 404) ∧ ct.body.size ≤ 0 then
    httpWrite ct (ascii "None") 4 else ct
  if 0 < ct.body.size then httpHeader ct (ascii "Content-Length") (some (sprintfD ct.body.size))
  else ct

/-- `http_send_response`: the value it returns, the connection and the content. -/
def httpSendResponse (conn : HttpConnection) (ct : HttpContent) :
    Except Fault (ℤ × HttpConnection × HttpContent) :=
  match httpMapGet ct.dict HTTP_STATUS, httpMapGet ct.dict HTTP_VERSION with
  | some status, some version =>
    let ct := completeResponse (atoi status) ct
    let buffer := headerBlock version status ct.dict
    if HTTP_MAX_SEND_BLOCK < buffer.length then .error .outOfBounds
    else
      let r := socketSend conn.handle buffer
      if 0 < ct.body.size then
        match ct.load ct.body with
        | .error e => .error e
        | .ok body =>
          let q := httpSendBinary r.2 body
          .ok (toInt32 (r.1 + q.1), { conn with handle := q.2 }, ct)
      else .ok (toInt32 r.1, { conn with handle := r.2 }, ct)
  | _, _ => .ok (-1, conn, ct)

section Pieces

variable {h : Socket} {pieces : List Bytes} {data buffer : Bytes} {n : ℕ}

/-- What a `socket_send` accepts is the start of its data. -/
theorem socketSend_sent (h : Socket) (data : Bytes) :
    (socketSend h data).2.sent = h.sent ++ data.take (socketSend h data).1 := rfl

/-- It accepts no more than there is. -/
theorem socketSend_le (h : Socket) (data : Bytes) : (socketSend h data).1 ≤ data.length := by
  unfold socketSend
  cases h.accepts with
  | nil => exact le_rfl
  | cons a as => exact min_le_right a data.length

/-- It accepts all of them if the next count allows it. -/
theorem socketSend_eq_length : (socketSend h data).1 = data.length ↔
    ∀ a, h.accepts.head? = some a → data.length ≤ a := by
  unfold socketSend
  cases h.accepts with
  | nil => simp
  | cons a as => simp

/-- No more is accepted than was sent.  Each call adds at most what it was asked
for, and a short one is not repeated. -/
theorem length_socketSends_le (h : Socket) (pieces : List Bytes) :
    (socketSends h pieces).sent.length ≤ h.sent.length + pieces.flatten.length := by
  induction pieces generalizing h with
  | nil => exact le_rfl
  | cons data pieces ih =>
    have hle := socketSend_le h data
    have hrest := ih (socketSend h data).2
    rw [socketSend_sent, List.length_append, List.length_take] at hrest
    rw [List.flatten_cons, List.length_append]
    show (socketSends (socketSend h data).2 pieces).sent.length ≤ _
    omega

/-- The first count of a list is complete, and the others are. -/
theorem zip_cons_iff {accepts : List ℕ} : (∀ p ∈ accepts.zip (data :: pieces), p.2.length ≤ p.1) ↔
    (∀ a, accepts.head? = some a → data.length ≤ a) ∧
      ∀ p ∈ accepts.tail.zip pieces, p.2.length ≤ p.1 := by
  cases accepts with
  | nil => simp
  | cons a accepts => simp [List.zip_cons_cons]

/-- **All pieces arrive exactly when every count is complete.**  A short one
loses the end of its piece, and later pieces do not make up for it. -/
theorem socketSends_iff : (socketSends h pieces).sent = h.sent ++ pieces.flatten ↔
    ∀ p ∈ h.accepts.zip pieces, p.2.length ≤ p.1 := by
  induction pieces generalizing h with
  | nil => simp [socketSends]
  | cons data pieces ih =>
    have hle := socketSend_le h data
    have hsent := socketSend_sent h data
    have hrest := length_socketSends_le (socketSend h data).2 pieces
    rw [zip_cons_iff, ← socketSend_eq_length]
    show (socketSends (socketSend h data).2 pieces).sent = _ ↔ _
    constructor
    · intro hall
      have hlen := congrArg List.length hall
      rw [hsent, List.length_append, List.length_take] at hrest
      rw [List.length_append, List.flatten_cons, List.length_append] at hlen
      have hfull : (socketSend h data).1 = data.length := by omega
      refine ⟨hfull, (ih (h := (socketSend h data).2)).1 ?_⟩
      rw [hall, hsent, hfull, List.take_length, List.flatten_cons, List.append_assoc]
    · rintro ⟨hfull, hothers⟩
      rw [ih.2 hothers, hsent, hfull, List.take_length, List.flatten_cons, List.append_assoc]

/-- The blocks are the buffer, cut every `HTTP_MAX_SEND_BLOCK` bytes.  So what
is sent whole is the buffer, whatever the number of blocks. -/
theorem flatten_sendBlocks (hn : buffer.length ≤ n) : (sendBlocks n buffer).flatten = buffer := by
  induction n generalizing buffer with
  | zero =>
    rw [List.length_eq_zero_iff.1 (Nat.le_zero.1 hn)]
    rfl
  | succ n ih =>
    unfold sendBlocks
    split_ifs with hnil
    · rw [hnil]
      rfl
    · have hpos := List.length_pos_iff.2 hnil
      have hblock : 0 < HTTP_MAX_SEND_BLOCK := by decide
      rw [List.flatten_cons, ih (by rw [List.length_drop]; omega), List.take_append_drop]

end Pieces

section Send

variable {conn : HttpConnection} {ct : HttpContent} {status version body : Bytes}

/-- The socket accepts the header block and the body, all of their bytes and no
others, and the value that is returned is their number. -/
def SendsAll (conn : HttpConnection) (ct : HttpContent) (head body : Bytes) : Prop :=
  ∃ ret conn' ct', httpSendResponse conn ct = .ok (ret, conn', ct') ∧
    conn'.handle.sent = conn.handle.sent ++ (head ++ body) ∧
    ret = (conn'.handle.sent.length - conn.handle.sent.length : ℤ)

/-- Every `socket_send` of the header block and of the blocks of the body
accepts all that it is asked to send. -/
def AcceptsAll (conn : HttpConnection) (head body : Bytes) : Prop :=
  ∀ p ∈ conn.handle.accepts.zip (head :: sendBlocks body.length body), p.2.length ≤ p.1

instance (conn : HttpConnection) (head body : Bytes) : Decidable (AcceptsAll conn head body) :=
  inferInstanceAs (Decidable (∀ p ∈ _, _ ≤ _))

/-- It is so exactly if the block and the body are what goes out. -/
theorem acceptsAll_iff {head : Bytes} : AcceptsAll conn head body ↔
    (socketSends conn.handle (head :: sendBlocks body.length body)).sent =
      conn.handle.sent ++ (head ++ body) := by
  have hpieces : (head :: sendBlocks body.length body).flatten = head ++ body := by
    rw [List.flatten_cons, flatten_sendBlocks le_rfl]
  rw [AcceptsAll, ← socketSends_iff, hpieces]

/-- A socket with no count left accepts everything. -/
theorem acceptsAll_eager (host : Bytes) (port : ℤ) (incoming : List Bytes)
    (sent head body : Bytes) : AcceptsAll ⟨host, port, ⟨incoming, [], sent⟩⟩ head body :=
  fun _ hp => absurd hp List.not_mem_nil

/-- What is sent once the header block was built: the block, and then the body.
The number returned is that of the first count and of the whole body. -/
theorem httpSendResponse_eq {head : Bytes} (hstatus : httpMapGet ct.dict HTTP_STATUS = some status)
    (hversion : httpMapGet ct.dict HTTP_VERSION = some version)
    (hhead : headerBlock version status (completeResponse (atoi status) ct).dict = head)
    (hbody : (completeResponse (atoi status) ct).load (completeResponse (atoi status) ct).body =
      .ok body) :
    httpSendResponse conn ct =
      if HTTP_MAX_SEND_BLOCK < head.length then .error .outOfBounds
      else .ok (toInt32 ((socketSend conn.handle head).1 + body.length),
        ⟨conn.host, conn.port, socketSends conn.handle (head :: sendBlocks body.length body)⟩,
        completeResponse (atoi status) ct) := by
  unfold httpSendResponse
  rw [hstatus, hversion]
  simp only [hhead]
  split_ifs with hlong hsize
  · rfl
  · rw [hbody]
    rfl
  · have hnil : body = [] := by
      rw [HttpContent.load, if_pos (not_lt.1 hsize)] at hbody
      exact (Except.ok.inj hbody).symm
    rw [hnil]
    simp only [List.length_nil, Nat.cast_zero, add_zero]
    rfl

/-- **A response is sent whole exactly when every count is complete**, for every
response and every sequence of counts: besides, the header block has to fit the
buffer it is built in, and the number of bytes has to be an `int`. -/
theorem httpSendResponse_iff {head : Bytes} (hstatus : httpMapGet ct.dict HTTP_STATUS = some status)
    (hversion : httpMapGet ct.dict HTTP_VERSION = some version)
    (hhead : headerBlock version status (completeResponse (atoi status) ct).dict = head)
    (hbody : (completeResponse (atoi status) ct).load (completeResponse (atoi status) ct).body =
      .ok body) :
    SendsAll conn ct head body ↔
      head.length ≤ HTTP_MAX_SEND_BLOCK ∧ head.length + body.length < 2 ^ 31 ∧
        AcceptsAll conn head body := by
  have hsum : ((conn.handle.sent ++ (head ++ body)).length - conn.handle.sent.length : ℤ) =
      (head.length + body.length : ℕ) := by
    rw [List.length_append, List.length_append]
    omega
  rw [SendsAll, httpSendResponse_eq hstatus hversion hhead hbody, acceptsAll_iff]
  constructor
  · rintro ⟨ret, conn', ct', hsend, hsent, hret⟩
    split_ifs at hsend with hlong
    obtain ⟨rfl, hrest⟩ := Prod.mk.inj (Except.ok.inj hsend)
    obtain ⟨rfl, -⟩ := Prod.mk.inj hrest
    refine ⟨not_lt.1 hlong, ?_, hsent⟩
    have hlt := Lib.toInt32_lt ((socketSend conn.handle head).1 + body.length)
    rw [hret, hsent, hsum] at hlt
    exact_mod_cast hlt
  · rintro ⟨hlong, hlt, hsent⟩
    rw [if_neg (not_lt.2 hlong)]
    refine ⟨_, _, _, rfl, hsent, ?_⟩
    have hfull : (socketSend conn.handle head).1 = head.length := by
      rw [← acceptsAll_iff, AcceptsAll, zip_cons_iff, ← socketSend_eq_length] at hsent
      exact hsent.1
    simp only [hsent, hsum, hfull]
    rw [Lib.toInt32_of_bounds (by omega) (by omega), Nat.cast_add]

/-- A page of five bytes. -/
def helloPage : HttpContent :=
  httpWrite (httpStartResponse (ascii "Fri, 01 Jan 2016 12:00:00 UTC") httpContentNew 200)
    (ascii "hello") 5

/-- Its header block. -/
def helloHead : Bytes :=
  headerBlock (ascii "HTTP/1.1") (ascii "200") (completeResponse 200 helloPage).dict

/-- A connection whose sends accept these counts. -/
def sendingTo (accepts : List ℕ) : HttpConnection := ⟨[], 0, ⟨[], accepts, []⟩⟩

/-- The page of the example has the status 200. -/
theorem status_helloPage : httpMapGet helloPage.dict HTTP_STATUS = some (ascii "200") := by decide

/-- It has the version of `http_start_response`. -/
theorem version_helloPage : httpMapGet helloPage.dict HTTP_VERSION = some (ascii "HTTP/1.1") := by
  decide

/-- And its body. -/
theorem body_helloPage : (completeResponse (atoi (ascii "200")) helloPage).load
    (completeResponse (atoi (ascii "200")) helloPage).body = .ok (ascii "hello") := by decide

/-- Its header block has 140 bytes. -/
theorem length_helloHead : helloHead.length = 140 := by decide +kernel

/-- Which are these. -/
theorem head_helloPage : headerBlock (ascii "HTTP/1.1") (ascii "200")
    (completeResponse (atoi (ascii "200")) helloPage).dict = helloHead := rfl

/-- The hypotheses are satisfiable. -/
theorem httpSendResponse_hello :
    SendsAll (sendingTo [140]) helloPage helloHead (ascii "hello") := by
  have hlen := length_helloHead
  have hblock : HTTP_MAX_SEND_BLOCK = 2097152 := rfl
  have hbody : (ascii "hello").length = 5 := rfl
  exact (httpSendResponse_iff status_helloPage version_helloPage head_helloPage body_helloPage).2
    ⟨by omega, by omega, by decide +kernel⟩

/-- Two bytes of the body are accepted, and the other three are never sent. -/
theorem httpSendResponse_short :
    (∀ a ∈ [140, 2], 1 ≤ a) ∧
      ¬SendsAll (sendingTo [140, 2]) helloPage helloHead (ascii "hello") := by
  refine ⟨by decide, ?_⟩
  rintro ⟨ret, conn', ct', hsend, hsent, -⟩
  have hlen := length_helloHead
  have hblock : HTTP_MAX_SEND_BLOCK = 2097152 := rfl
  rw [httpSendResponse_eq status_helloPage version_helloPage head_helloPage body_helloPage,
    if_neg (by omega)] at hsend
  obtain ⟨rfl, -⟩ := Prod.mk.inj (Prod.mk.inj (Except.ok.inj hsend)).2
  exact absurd (acceptsAll_iff.2 hsent) (by decide +kernel)

end Send

end Http
end Dukserver
