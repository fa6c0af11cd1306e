/-
# Receiving comes to an end

`Fault.outOfFuel` stands for a loop of `libhttpd/http_sendrecv.c` that does not end.  None
of the receiving functions answers it, for any stream, and each leaves no more to arrive
than there was; a message with a header block leaves less (`httpRecvRequest_settles`).  So a
program that receives one request after the other stops when all that was sent has
arrived.
-/

import Dukserver.Http.RecvRequest

namespace Dukserver
namespace Http

open Lib (Bytes ascii atoi delivered after)

/-- The bytes that a connection still has to deliver. -/
def Socket.pending (h : Socket) : ℕ := h.incoming.flatten.length

/-- A call that comes to an end: with a result that meets `P`, or with a fault
that is not the end of the fuel. -/
inductive Settles {α : Type} (P : α → Prop) : Except Fault α → Prop
  | ok {a : α} (h : P a) : Settles P (.ok a)
  | error {e : Fault} (h : e ≠ .outOfFuel) : Settles P (.error e)

/-- What settles with a property settles with a weaker one. -/
theorem Settles.mono {α : Type} {P Q : α → Prop} {x : Except Fault α} (h : Settles P x)
    (hPQ : ∀ a, P a → Q a) : Settles Q x := by
  cases h with
  | ok h => exact .ok (hPQ _ h)
  | error h => exact .error h

section Parts

variable {buf : Bytes} {h : Socket} {ct : HttpContent} {conn : HttpConnection} {fuel : ℕ}

/-- What was received is not pending any more. -/
theorem pending_socketRecv (h : Socket) (n : ℕ) :
    (socketRecv h n).1.length + (socketRecv h n).2.pending = h.pending := by
  have hflat := congrArg List.length (Lib.append_flatten_pull n h.incoming)
  rwa [List.length_append] at hflat

/-- No more is received than asked for. -/
theorem length_socketRecv_le (h : Socket) (n : ℕ) : (socketRecv h n).1.length ≤ n := by
  rw [socketRecv]
  cases h.incoming with
  | nil => exact Nat.zero_le n
  | cons c cs => exact List.length_take_le n c

/-- A comparison comes to an end, with an answer or a fault.  The fault is a
read outside of the buffer. -/
theorem matchAt_settles (buf : Bytes) (p : ℤ) (pat : Bytes) :
    Settles (fun _ => True) (matchAt buf p pat) := by
  induction pat generalizing p with
  | nil => exact .ok trivial
  | cons c pat ih =>
    unfold matchAt readAt
    split_ifs with hin
    · simp only
      split_ifs
      · exact ih (p + 1)
      · exact .ok trivial
    · exact .error (by simp)

/-- So does a scan: it looks at as many places as it was told, even if these
leave the buffer, where the first place is a fault. -/
theorem findCrlfLoop_settles (buf : Bytes) (p : ℤ) (n : ℕ) :
    Settles (fun _ => True) (findCrlfLoop buf p n) := by
  induction n generalizing p with
  | zero => exact .ok trivial
  | succ n ih =>
    unfold findCrlfLoop
    have hmatch := matchAt_settles buf p CRLFCRLF
    generalize matchAt buf p CRLFCRLF = m at hmatch
    cases hmatch with
    | error he => exact .error he
    | @ok b _ =>
      cases b with
      | true => exact .ok trivial
      | false => exact ih (p + 1)

/-- Every pass but the last takes a byte, and the header buffer ends: with no
room left a receive gets nothing. -/
theorem recvHeadersLoop_settles {scans : List Scan}
    (hlen : ct.headerbuf.buf.length ≤ ct.headerbuf.maxsize)
    (hfuel : ct.headerbuf.maxsize < fuel + ct.headerbuf.buf.length) :
    Settles (fun r => r.conn.handle.pending ≤ conn.handle.pending ∧
        (0 < r.ret → r.conn.handle.pending < conn.handle.pending))
      (recvHeadersLoop fuel ct conn scans) := by
  induction fuel generalizing ct conn scans with
  | zero => omega
  | succ fuel ih =>
    rw [recvHeadersLoop]
    simp only
    have hgot := length_socketRecv_le conn.handle (ct.headerbuf.maxsize - ct.headerbuf.buf.length)
    have hpending := pending_socketRecv conn.handle
      (ct.headerbuf.maxsize - ct.headerbuf.buf.length)
    generalize socketRecv conn.handle (ct.headerbuf.maxsize - ct.headerbuf.buf.length) = r
      at hgot hpending
    generalize (if r.1.length < ct.headerbuf.buf.length + r.1.length then (-3 : ℤ) else 0) =
      startPos
    by_cases hzero : r.1.length ≤ 0
    · rw [if_pos hzero]
      exact .ok ⟨by simp only; omega, fun hpos => absurd hpos (by simp)⟩
    · rw [if_neg hzero]
      have hfind := findCrlfLoop_settles (ct.headerbuf.buf ++ r.1)
        (ct.headerbuf.buf.length + startPos)
        (Lib.toInt32 ((r.1.length - 3) - startPos) % 2 ^ 32).toNat
      unfold httpFindCrlf
      generalize findCrlfLoop _ _ _ = found at hfind
      cases hfind with
      | error he => exact .error he
      | @ok place _ =>
        cases place with
        | some q => exact .ok ⟨by simp only; omega, fun _ => by simp only; omega⟩
        | none =>
          refine (ih ?_ ?_).mono fun r' hr' =>
              ⟨hr'.1.trans ?_, fun hpos => (hr'.2 hpos).trans_le ?_⟩
            <;> simp only [List.length_append] <;> omega

/-- **`http_recv_headers` comes to an end**, and has taken a byte if it has
found a header. -/
theorem httpRecvHeaders_settles (conn : HttpConnection) (hlen : ct.headerbuf.buf = []) :
    Settles (fun r => r.conn.handle.pending ≤ conn.handle.pending ∧
        (0 < r.ret → r.conn.handle.pending < conn.handle.pending)) (httpRecvHeaders conn ct) :=
  recvHeadersLoop_settles (by rw [hlen]; exact Nat.zero_le _) (by omega)

/-- What is left behind a number of bytes is no more than there was, chunk by
chunk. -/
theorem length_flatten_after_le (n : ℕ) (cs : List Bytes) :
    (after n cs).flatten.length ≤ cs.flatten.length := by
  induction cs generalizing n with
  | nil => rw [after]
  | cons c cs ih =>
    by_cases hc : c = []
    · subst hc
      cases n with
      | zero => rw [Lib.after_zero]
      | succ n => exact le_rfl
    · have hlen : (c :: cs).flatten.length = c.length + cs.flatten.length := by simp
      by_cases hle : c.length ≤ n
      · have hrest := ih (n - c.length)
        rw [Lib.after_cons_of_le hc hle]
        omega
      · rw [Lib.after_cons_of_lt (not_le.1 hle), List.flatten_cons, List.length_append,
          List.length_drop, hlen]
        omega

/-- **The loops of `http_recv_binary` and `http_recv_file` come to an end**: a
pass that gets nothing is the last, and every other one gets closer to the
length. -/
theorem recvLoop_settles {cap expect : ℕ} (hcap : 0 < cap) :
    Settles (fun r => r.2.pending ≤ h.pending) (recvLoop cap expect (expect + 1) h []) := by
  rw [recvLoop_eq hcap (by simp)]
  exact .ok (length_flatten_after_le _ _)

/-- Reading a reference comes to an end.  It gives the bytes, or a fault if
there are none at its address. -/
theorem load_settles (ct : HttpContent) (r : HttpReference) :
    Settles (fun _ => True) (ct.load r) := by
  unfold HttpContent.load HttpBuffer.load
  split_ifs
  · exact .ok trivial
  · split
    · exact .error (by simp)
    all_goals
      split_ifs
      · exact .ok trivial
      · exact .error (by simp)

/-- **`http_recv_body` comes to an end**, by one of its loops or without any:
the ways out before them receive nothing. -/
theorem httpRecvBody_settles (env : RecvEnv) (conn : HttpConnection) (ct : HttpContent) :
    Settles (fun b => b.conn.handle.pending ≤ conn.handle.pending) (httpRecvBody env conn ct) := by
  unfold httpRecvBody
  cases httpMapGet ct.dict (ascii "Content-Length") with
  | none => exact .ok le_rfl
  | some contentLengthStr =>
    simp only
    generalize (if 0 < ct.body.size then ct.body.size else ct.bodybuf.size) = copiedSize
    split_ifs with hzero hle hfile hopen
    · exact .ok le_rfl
    · exact .ok le_rfl
    · have hload := load_settles { ct with
        dict := httpMapSet ct.dict HTTP_TMPFILE (some env.tmpfilename) } ct.body
      generalize HttpContent.load _ _ = loaded at hload
      cases hload with
      | error he => exact .error he
      | ok _ =>
        have hrecv := @recvLoop_settles conn.handle K_BUFFER_1KB
          (atoi contentLengthStr - ct.body.size).toNat (by simp [K_BUFFER_1KB])
        simp only [httpRecvFile]
        generalize recvLoop _ _ _ _ _ = received at hrecv
        cases hrecv with
        | error he => exact .error he
        | ok hp => exact .ok hp
    · exact .ok le_rfl
    · have hload := load_settles ct ct.body
      generalize ct.load ct.body = loaded at hload
      cases hload with
      | error he => exact .error he
      | ok _ =>
        have hrecv := @recvLoop_settles conn.handle (atoi contentLengthStr - ct.body.size).toNat
          (atoi contentLengthStr - ct.body.size).toNat (by omega)
        simp only [httpRecvBinary]
        generalize recvLoop _ _ _ _ _ = received at hrecv
        cases hrecv with
        | error he => exact .error he
        | ok hp => exact .ok hp

/-- And so does what follows the header. -/
theorem recvBodyOf_settles (env : RecvEnv) :
    Settles (fun r => r.conn.handle.pending ≤ conn.handle.pending) (recvBodyOf env conn ct) := by
  have hbody := httpRecvBody_settles env conn ct
  rw [recvBodyOf]
  generalize httpRecvBody env conn ct = body at hbody
  cases hbody with
  | error he => exact .error he
  | ok hp => exact .ok hp

/-- **Receiving a request comes to an end**, and a request is a part of what was
pending: at least the byte that its header took. -/
theorem httpRecvRequest_settles (env : RecvEnv) (conn : HttpConnection) :
    Settles (fun r => r.conn.handle.pending ≤ conn.handle.pending ∧
        (r.content.isSome → r.conn.handle.pending < conn.handle.pending))
      (httpRecvRequest env conn) := by
  have hhead := @httpRecvHeaders_settles httpContentNew conn rfl
  rw [httpRecvRequest]
  generalize httpRecvHeaders conn httpContentNew = head at hhead
  cases hhead with
  | error he => exact .error he
  | @ok r hr =>
    simp only
    split_ifs with hret
    · exact .ok ⟨hr.1, fun hsome => absurd hsome (by simp)⟩
    · have hless := hr.2 (not_le.1 hret)
      cases httpParseRequestHeaders (r.ct.headerbuf.buf ++ env.uninit) r.ct.header.size.toNat
        r.ct.dict with
      | mk done dict =>
        cases done with
        | false => exact .ok ⟨hr.1, fun hsome => absurd hsome (by simp)⟩
        | true =>
          have hrest : (expectContinue dict r.conn).handle.pending = r.conn.handle.pending := by
            rw [Socket.pending, expectContinue_incoming, Socket.pending]
          refine (recvBodyOf_settles env).mono fun q hq => ⟨?_, fun _ => ?_⟩ <;> omega

/-- **Receiving a response comes to an end**, in the same way; the parser that
runs without a header may be a fault, but no loop. -/
theorem httpRecvResponse_settles (env : RecvEnv) (conn : HttpConnection) :
    Settles (fun r => r.conn.handle.pending ≤ conn.handle.pending) (httpRecvResponse env conn) := by
  have hhead := @httpRecvHeaders_settles httpContentNew conn rfl
  rw [httpRecvResponse]
  generalize httpRecvHeaders conn httpContentNew = head at hhead
  cases hhead with
  | error he => exact .error he
  | @ok r hr =>
    simp only
    split_ifs
    · exact .ok hr.1
    · exact .error (by simp)
    · cases httpParseResponseHeaders (r.ct.headerbuf.buf ++ env.uninit) r.ct.header.size.toNat
        r.ct.dict with
      | mk done dict =>
        cases done with
        | false => exact .ok hr.1
        | true => exact (recvBodyOf_settles env).mono fun q hq => hq.trans hr.1

end Parts

end Http
end Dukserver
