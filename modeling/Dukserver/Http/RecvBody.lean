/-
# Receiving the body

`libhttpd/http_sendrecv.c`, `http_recv_binary`, `http_recv_file` and
`http_recv_body` (lines 360-493).  The bytes that came with the header count
first.  A body that is not complete goes on in the body buffer, or in a
temporary file if `Content-Length` is larger than the buffers; both loops stop at
the first receive that gets nothing, and have then taken what was delivered
(`recvLoop_eq`).

`ct->body->size` is set to `Content-Length` whatever was received, and
`ct->body->ptr` to `NULL` when a file is used.
-/

import Dukserver.Http.RecvHeaders

namespace Dukserver
namespace Http

open Lib (Bytes ascii atoi delivered after)

/-- What a receiving function finds in its environment: the name that `rand`,
`time` and `clock` give for a temporary file, whether it can be opened, and what
lies in the header buffer behind the received bytes. -/
structure RecvEnv where
  tmpfilename : Bytes
  fopenOk : Bool
  uninit : Bytes
  deriving DecidableEq, Repr

/-- The loop of `http_recv_binary` and of `http_recv_file`: receive at most
`cap` bytes at a time, until there are `expect` of them. -/
def recvLoop (cap expect : ℕ) : ℕ → Socket → Bytes → Except Fault (Bytes × Socket)
  | 0, _, _ => .error .outOfFuel
  | fuel + 1, h, received =>
    if received.length < expect then
      let r := socketRecv h (min cap (expect - received.length))
      if r.1.length ≤ 0 then .ok (received, r.2)
      else recvLoop cap expect fuel r.2 (received ++ r.1)
    else .ok (received, h)

/-- `http_recv_binary`: the bytes written to `buffer`. -/
def httpRecvBinary (h : Socket) (expectLength : ℕ) : Except Fault (Bytes × Socket) :=
  recvLoop expectLength expectLength (expectLength + 1) h []

/-- `http_recv_file`: the bytes written to `fp`. -/
def httpRecvFile (h : Socket) (expectLength : ℕ) : Except Fault (Bytes × Socket) :=
  recvLoop K_BUFFER_1KB expectLength (expectLength + 1) h []

/-- Write to the start of a buffer. -/
def HttpBuffer.write (b : HttpBuffer) (data : Bytes) : HttpBuffer :=
  { b with buf := data ++ b.buf.drop data.length }

/-- What `http_recv_body` returns and leaves behind, and the file it has
written. -/
structure RecvBody where
  ret : ℤ
  ct : HttpContent
  conn : HttpConnection
  tmpfile : Option Bytes
  deriving DecidableEq, Repr

/-- `http_recv_body`. -/
def httpRecvBody (env : RecvEnv) (conn : HttpConnection) (ct : HttpContent) :
    Except Fault RecvBody :=
  match httpMapGet ct.dict (ascii "Content-Length") with
  | none => .ok ⟨0, ct, conn, none⟩
  | some contentLengthStr =>
    let contentLength := atoi contentLengthStr
    if contentLength ≤ 0 then .ok ⟨0, ct, conn, none⟩
    else if contentLength ≤ ct.body.size then
      .ok ⟨0, { ct with body := { ct.body with size := contentLength } }, conn, none⟩
    else
      let toReceived := (contentLength - ct.body.size).toNat
      if (HTTP_MAX_BUFFER_SIZE : ℤ) < contentLength then
        let ct := { ct with dict := httpMapSet ct.dict HTTP_TMPFILE (some env.tmpfilename) }
        if env.fopenOk then
          match ct.load ct.body with
          | .error e => .error e
          | .ok copied =>
            match httpRecvFile conn.handle toReceived with
            | .error e => .error e
            | .ok (data, handle) =>
              .ok ⟨data.length, { ct with body := ⟨.null, contentLength⟩ },
                { conn with handle := handle }, some (copied ++ data)⟩
        else .ok ⟨-1, ct, conn, none⟩
      else
        match ct.load ct.body with
        | .error e => .error e
        | .ok copied =>
          let copiedSize := if 0 < ct.body.size then ct.body.size else ct.bodybuf.size
          match httpRecvBinary conn.handle toReceived with
          | .error e => .error e
          | .ok (data, handle) =>
            .ok ⟨data.length,
              { ct with
                bodybuf := { ct.bodybuf.write (copied ++ data) with
                  size := copiedSize + data.length }
                body := ⟨.bodybuf 0, contentLength⟩ },
              { conn with handle := handle }, none⟩

section Loop

variable {cap expect fuel : ℕ} {h : Socket} {received : Bytes}

/-- **The loop takes what is delivered, up to what it expects**, in however many
receives. -/
theorem recvLoop_eq (hcap : 0 < cap) (hfuel : expect - received.length < fuel) :
    recvLoop cap expect fuel h received =
      .ok (received ++ (delivered h.incoming).take (expect - received.length),
        { h with incoming := after (expect - received.length) h.incoming }) := by
  induction fuel generalizing h received with
  | zero => omega
  | succ fuel ih =>
    rw [recvLoop]
    by_cases hlt : received.length < expect
    · rw [if_pos hlt]
      by_cases hd : delivered h.incoming = []
      · rw [socketRecv, Lib.pull_of_delivered_eq_nil
          (show 0 < expect - received.length by omega) hd, hd]
        simp
      · obtain ⟨k, hk, hkn, hkd, hpull⟩ := Lib.exists_pull_eq
          (show 0 < min cap (expect - received.length) by omega) hd
        have hlen : ((delivered h.incoming).take k).length = k := by
          rw [List.length_take]
          omega
        have hrest : expect - (received ++ (delivered h.incoming).take k).length =
            expect - received.length - k := by
          rw [List.length_append, hlen]
          omega
        rw [socketRecv, hpull]
        simp only [hlen, if_neg (not_le.2 hk)]
        rw [ih (by omega), hrest]
        simp only
        have hsum : k + (expect - received.length - k) = expect - received.length := by omega
        rw [Lib.delivered_after hkd, Lib.after_after hkd, List.append_assoc, ← List.take_add, hsum]
    · have hzero : expect - received.length = 0 := by omega
      rw [if_neg hlt, hzero, List.take_zero, List.append_nil, Lib.after_zero]

end Loop

/-! ### The cases of `http_recv_body` -/

section Cases

variable {buf v : Bytes} {h n : ℕ} {dict : HttpMap}

/-- The content after its header was parsed: `buf` is what was received, `h` the
size of the header. -/
def parsed (buf : Bytes) (h : ℕ) (dict : HttpMap) : HttpContent :=
  { withHeader buf h with dict := dict }

/-- The body is what came behind the header. -/
theorem load_body_parsed (hle : h ≤ buf.length) :
    (parsed buf h dict).load (parsed buf h dict).body = .ok (buf.drop h) :=
  load_body_withHeader hle

/-- A body that was cut to its first `n` bytes.  Only the size of the reference
is changed: what follows stays in the buffer. -/
theorem load_body_take (dict : HttpMap) (hn : 0 < n) (hle : h + n ≤ buf.length) :
    HttpContent.load { parsed buf h dict with
        body := { (parsed buf h dict).body with size := n } }
      { (parsed buf h dict).body with size := n } = .ok ((buf.drop h).take n) := by
  have hptr : (parsed buf h dict).body.ptr = .headerbuf h := if_neg (by omega)
  rw [HttpContent.load]
  simp only [hptr, Int.toNat_natCast]
  rw [if_neg (by omega)]
  exact HttpBuffer.load_of_le hle

/-- Its size is the number of these bytes. -/
theorem size_body_parsed (dict : HttpMap) (hle : h ≤ buf.length) :
    (parsed buf h dict).body.size = (buf.drop h).length := by
  show ((buf.length : ℤ) - h) = _
  rw [List.length_drop]
  omega

/-- Without a positive `Content-Length` the body is what came with the header.
The function returns before it receives anything. -/
theorem httpRecvBody_of_none (env : RecvEnv) (conn : HttpConnection)
    (hv : ∀ v, httpMapGet dict (ascii "Content-Length") = some v → atoi v ≤ 0) :
    httpRecvBody env conn (parsed buf h dict) = .ok ⟨0, parsed buf h dict, conn, none⟩ := by
  rw [httpRecvBody]
  cases hget : httpMapGet dict (ascii "Content-Length") with
  | none => simp only [parsed, hget]
  | some v => simp only [parsed, hget, if_pos (hv v hget)]

/-- A body that came with the header is cut to its length.  Nothing is received
then, and bytes behind the body are dropped with the buffer. -/
theorem httpRecvBody_of_le (env : RecvEnv) (conn : HttpConnection)
    (hv : httpMapGet dict (ascii "Content-Length") = some v)
    (hn : atoi v = n) (hpos : 0 < n) (hle : h + n ≤ buf.length) :
    httpRecvBody env conn (parsed buf h dict) =
      .ok ⟨0, { parsed buf h dict with body := { (parsed buf h dict).body with size := n } },
        conn, none⟩ := by
  rw [httpRecvBody]
  have hget : httpMapGet (parsed buf h dict).dict (ascii "Content-Length") = some v := hv
  simp only [hget, hn]
  rw [if_neg (by omega), if_pos (by rw [size_body_parsed dict (by omega), List.length_drop]; omega)]

/-- **A body that fits the body buffer is what was delivered of it**, and its
size is `Content-Length`. -/
theorem httpRecvBody_of_lt (env : RecvEnv) (conn : HttpConnection)
    (hv : httpMapGet dict (ascii "Content-Length") = some v)
    (hn : atoi v = n) (hh : h ≤ buf.length) (hlt : buf.length < h + n)
    (hle : n ≤ HTTP_MAX_BUFFER_SIZE) :
    ∃ data, data = (delivered conn.handle.incoming).take (h + n - buf.length) ∧
      httpRecvBody env conn (parsed buf h dict) =
        .ok ⟨data.length,
          { parsed buf h dict with
            bodybuf := ⟨buf.drop h ++ data, HTTP_MAX_BUFFER_SIZE,
              ((buf.drop h ++ data).length : ℕ)⟩
            body := ⟨.bodybuf 0, n⟩ },
          conn.after (h + n - buf.length), none⟩ := by
  refine ⟨_, rfl, ?_⟩
  have hget : httpMapGet (parsed buf h dict).dict (ascii "Content-Length") = some v := hv
  have hsize := size_body_parsed dict hh
  have hdrop : (buf.drop h).length = buf.length - h := List.length_drop
  have hrecv : ((n : ℤ) - (parsed buf h dict).body.size).toNat = h + n - buf.length := by omega
  have hloop : httpRecvBinary conn.handle (h + n - buf.length) = .ok
      ((delivered conn.handle.incoming).take (h + n - buf.length),
        { conn.handle with incoming := after (h + n - buf.length) conn.handle.incoming }) := by
    rw [httpRecvBinary, recvLoop_eq (by omega) (by simp)]
    simp
  rw [httpRecvBody]
  simp only [hget, hn, hrecv, hloop, load_body_parsed hh]
  rw [if_neg (by omega), if_neg (by omega), if_neg (by omega)]
  have hbodybuf : (parsed buf h dict).bodybuf = ⟨[], HTTP_MAX_BUFFER_SIZE, 0⟩ := rfl
  have hcopied : (if 0 < ((buf.drop h).length : ℤ) then ((buf.drop h).length : ℤ) else 0) =
      (buf.drop h).length := by split_ifs <;> omega
  simp only [hsize, hbodybuf, hcopied, HttpBuffer.write, List.drop_nil, List.append_nil,
    List.length_append, Nat.cast_add]
  rfl

/-- **A larger body goes to the temporary file**, and `ptr` is `NULL`. -/
theorem httpRecvBody_file (env : RecvEnv) (conn : HttpConnection)
    (hv : httpMapGet dict (ascii "Content-Length") = some v)
    (hn : atoi v = n) (hh : h ≤ buf.length) (hlt : buf.length < h + n)
    (hgt : HTTP_MAX_BUFFER_SIZE < n) (hopen : env.fopenOk = true) :
    ∃ data, data = (delivered conn.handle.incoming).take (h + n - buf.length) ∧
      httpRecvBody env conn (parsed buf h dict) =
        .ok ⟨data.length,
          { parsed buf h (httpMapSet dict HTTP_TMPFILE (some env.tmpfilename)) with
            body := ⟨.null, n⟩ },
          conn.after (h + n - buf.length), some (buf.drop h ++ data)⟩ := by
  refine ⟨_, rfl, ?_⟩
  have hget : httpMapGet (parsed buf h dict).dict (ascii "Content-Length") = some v := hv
  have hsize := size_body_parsed dict hh
  have hdrop : (buf.drop h).length = buf.length - h := List.length_drop
  have hrecv : ((n : ℤ) - (parsed buf h dict).body.size).toNat = h + n - buf.length := by omega
  have hloop : httpRecvFile conn.handle (h + n - buf.length) = .ok
      ((delivered conn.handle.incoming).take (h + n - buf.length),
        { conn.handle with incoming := after (h + n - buf.length) conn.handle.incoming }) := by
    rw [httpRecvFile, recvLoop_eq (by decide) (by simp)]
    simp
  have hload : HttpContent.load { parsed buf h dict with
      dict := httpMapSet (parsed buf h dict).dict HTTP_TMPFILE (some env.tmpfilename) }
      (parsed buf h dict).body = .ok (buf.drop h) := load_body_parsed hh
  rw [httpRecvBody]
  simp only [hget, hn, hrecv, hloop, hopen, hload, if_true]
  rw [if_neg (by omega), if_neg (by omega), if_pos (by omega)]
  rfl

/-- If the file cannot be opened, nothing is received.  Its name is in the
dictionary all the same, as it was set before. -/
theorem httpRecvBody_no_file (env : RecvEnv) (conn : HttpConnection)
    (hv : httpMapGet dict (ascii "Content-Length") = some v)
    (hn : atoi v = n) (hh : h ≤ buf.length) (hlt : buf.length < h + n)
    (hgt : HTTP_MAX_BUFFER_SIZE < n) (hopen : env.fopenOk = false) :
    httpRecvBody env conn (parsed buf h dict) =
      .ok ⟨-1, parsed buf h (httpMapSet dict HTTP_TMPFILE (some env.tmpfilename)), conn, none⟩ := by
  have hget : httpMapGet (parsed buf h dict).dict (ascii "Content-Length") = some v := hv
  have hsize := size_body_parsed dict hh
  have hdrop : (buf.drop h).length = buf.length - h := List.length_drop
  rw [httpRecvBody]
  simp only [hget, hn, hopen]
  rw [if_neg (by omega), if_neg (by omega), if_pos (by omega)]
  rfl

end Cases

/-! ### What is stored and what is left -/

/-- What becomes of a message of `n` bytes, the first of which are left over
from the header: exactly the bytes that are missing are taken from the
connection, as far as the stream goes; the message is where `Content-Length`
says; and the body buffer is not written past its end. -/
structure BodyTaken (conn : HttpConnection) (leftover stream : Bytes) (n : ℕ) (r : RecvBody) :
    Prop where
  consumed : r.conn.handle.incoming.flatten =
    conn.handle.incoming.flatten.drop (min (n - leftover.length) stream.length)
  inHeader : n ≤ leftover.length → r.ct.load r.ct.body = .ok ((leftover ++ stream).take n)
  inBuffer : leftover.length < n → n ≤ HTTP_MAX_BUFFER_SIZE →
    r.ct.bodybuf.buf = (leftover ++ stream).take n ∧
      r.ct.bodybuf.size = ((leftover ++ stream).take n).length
  inFile : leftover.length < n → HTTP_MAX_BUFFER_SIZE < n →
    r.tmpfile = some ((leftover ++ stream).take n)
  bounded : r.ct.bodybuf.buf.length ≤ r.ct.bodybuf.maxsize

section Taken

variable {buf v : Bytes} {h n : ℕ} {dict : HttpMap}

/-- **`http_recv_body` stores the first `n` bytes of what is left over and of
the stream, and takes no byte more**, in memory and in a file, however the
stream is cut. -/
theorem httpRecvBody_taken (env : RecvEnv) (conn : HttpConnection) {chunks tail : List Bytes}
    (hchunks : ∀ c ∈ chunks, c ≠ []) (htail : tail = [] ∨ tail.head? = some [])
    (hincoming : conn.handle.incoming = chunks ++ tail) (hopen : env.fopenOk = true)
    (hv : httpMapGet dict (ascii "Content-Length") = some v) (hn : atoi v = n) (hpos : 0 < n)
    (hh : h ≤ buf.length) :
    ∃ r, httpRecvBody env conn (parsed buf h dict) = .ok r ∧
      BodyTaken conn (buf.drop h) chunks.flatten n r := by
  have hstream : delivered conn.handle.incoming = chunks.flatten := by
    rw [hincoming, Lib.delivered_append hchunks]
    rcases htail with rfl | htail
    · exact List.append_nil _
    · obtain ⟨tail, rfl⟩ := List.head?_eq_some_iff.1 htail
      exact List.append_nil _
  have hlen : (buf.drop h).length = buf.length - h := List.length_drop
  by_cases hle : h + n ≤ buf.length
  · refine ⟨_, httpRecvBody_of_le env conn hv hn hpos hle, ?_, ?_, ?_, ?_, ?_⟩
    · rw [hlen, show n - (buf.length - h) = 0 by omega, Nat.zero_min, List.drop_zero]
    · intro _
      rw [List.take_append_of_le_length (by omega)]
      exact load_body_take dict hpos hle
    · intro hlt
      omega
    · intro hlt
      omega
    · exact Nat.zero_le _
  · -- what is missing is what is received, up to the end of the stream
    have hmissing : h + n - buf.length = n - (buf.drop h).length := by omega
    have htake : buf.drop h ++ chunks.flatten.take (n - (buf.drop h).length) =
        (buf.drop h ++ chunks.flatten).take n := by
      rw [List.take_append, List.take_of_length_le (show (buf.drop h).length ≤ n by omega)]
    have hconsumed : (conn.after (h + n - buf.length)).handle.incoming.flatten =
        conn.handle.incoming.flatten.drop
          (min (n - (buf.drop h).length) chunks.flatten.length) := by
      rw [HttpConnection.after, Lib.flatten_after, hstream, hmissing]
    by_cases hmax : n ≤ HTTP_MAX_BUFFER_SIZE
    · obtain ⟨data, hdata, hrecv⟩ := httpRecvBody_of_lt env conn hv hn hh (by omega) hmax
      rw [hstream, hmissing] at hdata
      subst hdata
      rw [htake] at hrecv
      refine ⟨_, hrecv, hconsumed, ?_, ?_, ?_, ?_⟩
      · intro hlt
        omega
      · exact fun _ _ => ⟨rfl, rfl⟩
      · intro _ hlt
        omega
      · exact (List.length_take_le _ _).trans hmax
    · obtain ⟨data, hdata, hrecv⟩ :=
        httpRecvBody_file env conn hv hn hh (by omega) (not_le.1 hmax) hopen
      rw [hstream, hmissing] at hdata
      subst hdata
      rw [htake] at hrecv
      refine ⟨_, hrecv, hconsumed, ?_, ?_, ?_, ?_⟩
      · intro hlt
        omega
      · intro _ hlt
        omega
      · exact fun _ _ => rfl
      · exact Nat.zero_le _

/-- The hypotheses are satisfiable: one byte came with the header, the stream
brings two more than are missing, and then the peer waits. -/
theorem httpRecvBody_taken_split : ∃ r,
    httpRecvBody ⟨[], true, []⟩ (connectionOf [ascii "b", ascii "cde", [], ascii "f"])
        (parsed (ascii "\r\n\r\na") 4
          (httpMapSet (httpMapNew 10) (ascii "Content-Length") (some (ascii "3")))) = .ok r ∧
      BodyTaken (connectionOf [ascii "b", ascii "cde", [], ascii "f"]) (ascii "a") (ascii "bcde")
        3 r :=
  httpRecvBody_taken _ _ (show ∀ c ∈ [ascii "b", ascii "cde"], c ≠ [] by decide) (.inr rfl) rfl rfl
    (show _ = some (ascii "3") by decide) (by decide) (by decide) (by decide)

end Taken

end Http
end Dukserver
