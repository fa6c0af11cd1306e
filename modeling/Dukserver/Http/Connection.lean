/-
# The connection

`libsocket/usocket.c`, `socket_send` and `socket_recv`, and `http_connection_t`.
What the network does is in the socket: the pieces that the next receives will
deliver and how much the next sends will accept.  The model keeps what was
accepted, so the peer's view of the connection is `sent`.
-/

import Dukserver.Http.Common
import Dukserver.Lib.Chunks

namespace Dukserver
namespace Http

open Lib (Bytes)

/-- A connected socket.  An empty piece in `incoming` is a receive that fails,
by close or by timeout, and so is the end of the list.  A number in `accepts` is
how many bytes `send` takes at most, `0` being a failure; once the list is used
up, every send is complete. -/
structure Socket where
  incoming : List Bytes
  accepts : List ℕ
  sent : Bytes
  deriving DecidableEq, Repr

/-- `http_connection_t`. -/
structure HttpConnection where
  host : Bytes
  port : ℤ
  handle : Socket
  deriving DecidableEq, Repr

/-- `socket_recv`: the received bytes (their number is `*got`). -/
def socketRecv (h : Socket) (count : ℕ) : Bytes × Socket :=
  let r := Lib.pull count h.incoming
  (r.1, { h with incoming := r.2 })

/-- `socket_send`: `*sent`.  It returns after its first successful `send`. -/
def socketSend (h : Socket) (data : Bytes) : ℕ × Socket :=
  let n := match h.accepts with
    | [] => data.length
    | a :: _ => min a data.length
  (n, { h with accepts := h.accepts.tail, sent := h.sent ++ data.take n })

/-- `http_send_string`. -/
def httpSendString (conn : HttpConnection) (s : Bytes) : ℕ × HttpConnection :=
  let r := socketSend conn.handle (Lib.cstr s)
  (r.1, { conn with handle := r.2 })

/-- Sending receives nothing. -/
@[simp] theorem httpSendString_incoming (conn : HttpConnection) (s : Bytes) :
    (httpSendString conn s).2.handle.incoming = conn.handle.incoming := rfl

end Http
end Dukserver
