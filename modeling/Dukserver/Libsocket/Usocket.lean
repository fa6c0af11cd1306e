/-
# The sockets of Linux

`libsocket/usocket.c`: `socket_waitfd`, `socket_recv` and `socket_send`.  Both try again
when a system call was interrupted, wait in `select` when it would block, and give up on
any other error.  The answers of the kernel are part of the socket, in the order in which
the calls get them, so every behaviour of it is a list of answers.

The rest of the program sees of all this only what arrived and how much was accepted, which
is the socket of `Http/Connection.lean` (`Handle.toSocket`).  No program can tell the two
apart (`client_refines`), and what the answers were is in the value returned: it is
`IO_DONE` when something was moved and only then (`socketRecv_done`, `socketSend_done`).
-/

import Dukserver.Http.Connection

namespace Dukserver
namespace Libsocket

open Lib (Bytes)
open Http (Socket)

def IO_DONE : ℤ := 0
def IO_TIMEOUT : ℤ := -1
def IO_CLOSED : ℤ := -2

def SOCKET_INVALID : ℤ := -1

/-- Seconds, of `http_common.h`. -/
def HTTP_SEND_TIMEOUT : ℕ := 1
def HTTP_RECV_TIMEOUT : ℕ := 2

/-! ### The answers of the kernel -/

/-- `errno` behind a call that failed, which is never zero. -/
structure Errno where
  val : ℕ
  ne_zero : val ≠ 0
  deriving DecidableEq, Repr

def EINTR : Errno := ⟨4, by decide⟩
def EAGAIN : Errno := ⟨11, by decide⟩
def EPIPE : Errno := ⟨32, by decide⟩

/-- An answer of `select`: `readable` is `FD_ISSET(*h, &rfds)`. -/
inductive SelectAnswer
  | ready (readable : Bool)
  | timeout
  | failed (err : Errno)
  deriving DecidableEq, Repr

/-- An answer of `recv`: the bytes that have arrived, none if the peer has
closed, or an error, with the answers of `select` if the caller waits then. -/
inductive RecvAnswer
  | arrived (c : Bytes)
  | failed (err : Errno) (waits : List SelectAnswer)
  deriving DecidableEq, Repr

/-- An answer of `send`: the room there is, or an error. -/
inductive SendAnswer
  | accepted (room : ℕ)
  | failed (err : Errno) (waits : List SelectAnswer)
  deriving DecidableEq, Repr

/-- A socket with what the kernel is going to answer.  Behind the last answer
nothing arrives any more, and everything is accepted.  `sent` is what was
accepted so far. -/
structure Handle where
  fd : ℤ
  recvs : List RecvAnswer
  sends : List SendAnswer
  sent : Bytes
  deriving DecidableEq, Repr

/-! ### The calls -/

/-- What `socket_waitfd` waits for. -/
inductive Waitfd
  | WAITFD_R
  | WAITFD_W
  | WAITFD_C
  deriving DecidableEq, Repr

/-- The loop of `socket_waitfd` around `select`. -/
def selectLoop : List SelectAnswer → SelectAnswer
  | [] => .timeout
  | .failed err :: ws => if err = EINTR then selectLoop ws else .failed err
  | w :: _ => w

/-- `socket_waitfd`. -/
def socketWaitfd (sw : Waitfd) (tm : ℕ) (ws : List SelectAnswer) : ℤ :=
  if tm = 0 then IO_TIMEOUT
  else match selectLoop ws with
    | .failed err => err.val
    | .timeout => IO_TIMEOUT
    | .ready readable => if sw = .WAITFD_C ∧ readable = true then IO_CLOSED else IO_DONE

/-- The loop of `socket_recv`: what it returns, what was received, and what the
kernel answers next. -/
def recvLoop (count tm : ℕ) : List RecvAnswer → ℤ × Bytes × List RecvAnswer
  | [] => (IO_TIMEOUT, [], [])
  | .arrived c :: rs =>
    let rest := if c.length ≤ count then rs else .arrived (c.drop count) :: rs
    if 0 < (c.take count).length then (IO_DONE, c.take count, rest) else (IO_CLOSED, [], rest)
  | .failed err ws :: rs =>
    if err = EINTR then recvLoop count tm rs
    else if err ≠ EAGAIN then (err.val, [], rs)
    else
      let e := socketWaitfd .WAITFD_R tm ws
      if e ≠ IO_DONE then (e, [], rs) else recvLoop count tm rs

/-- `socket_recv`. -/
def socketRecv (h : Handle) (count tm : ℕ) : ℤ × Bytes × Handle :=
  if h.fd = SOCKET_INVALID then (IO_CLOSED, [], h)
  else
    let r := recvLoop count tm h.recvs
    (r.1, r.2.1, { h with recvs := r.2.2 })

/-- The loop of `socket_send`: what it returns, how much was sent, and what the
kernel answers next. -/
def sendLoop (count tm : ℕ) : List SendAnswer → ℤ × ℕ × List SendAnswer
  | [] => if 0 < count then (IO_DONE, count, []) else (IO_CLOSED, 0, [])
  | .accepted room :: rs =>
    if 0 < min room count then (IO_DONE, min room count, rs) else (IO_CLOSED, 0, rs)
  | .failed err ws :: rs =>
    if err = EPIPE then (IO_CLOSED, 0, rs)
    else if err = EINTR then sendLoop count tm rs
    else if err ≠ EAGAIN then (err.val, 0, rs)
    else
      let e := socketWaitfd .WAITFD_W tm ws
      if e ≠ IO_DONE then (e, 0, rs) else sendLoop count tm rs

/-- `socket_send`. -/
def socketSend (h : Handle) (data : Bytes) (tm : ℕ) : ℤ × ℕ × Handle :=
  if h.fd = SOCKET_INVALID then (IO_CLOSED, 0, h)
  else
    let r := sendLoop data.length tm h.sends
    (r.1, r.2.1, { h with sends := r.2.2, sent := h.sent ++ data.take r.2.1 })

/-! ### What the program sees of it -/

/-- The call is made again behind this error. -/
def retried (sw : Waitfd) (tm : ℕ) (err : Errno) (ws : List SelectAnswer) : Bool :=
  err = EINTR ∨ err = EAGAIN ∧ socketWaitfd sw tm ws = IO_DONE

/-- The pieces that receives get: an error behind which `socket_recv` gives up
is a receive that gets nothing. -/
def incoming : List RecvAnswer → List Bytes
  | [] => []
  | .arrived c :: rs => c :: incoming rs
  | .failed err ws :: rs =>
    if retried .WAITFD_R HTTP_RECV_TIMEOUT err ws then incoming rs else [] :: incoming rs

/-- How much the sends take. -/
def accepts : List SendAnswer → List ℕ
  | [] => []
  | .accepted room :: rs => room :: accepts rs
  | .failed err ws :: rs =>
    if retried .WAITFD_W HTTP_SEND_TIMEOUT err ws then accepts rs else 0 :: accepts rs

/-- The socket without the answers that nobody sees. -/
def Handle.toSocket (h : Handle) : Socket := ⟨incoming h.recvs, accepts h.sends, h.sent⟩

section Loops

variable {count tm : ℕ} {sw : Waitfd} {err : Errno} {ws : List SelectAnswer}

/-- An error is not `IO_DONE`: the numbers of errors are positive. -/
theorem Errno.val_ne_done (err : Errno) : (err.val : ℤ) ≠ IO_DONE := by
  rw [IO_DONE]
  exact_mod_cast err.ne_zero

/-- An interrupted call is made again. -/
theorem retried_EINTR : retried sw tm EINTR ws = true := by
  simp [retried]

/-- One that would block is made again if `select` says that it can. -/
theorem retried_EAGAIN : retried sw tm EAGAIN ws = decide (socketWaitfd sw tm ws = IO_DONE) := by
  simp [retried, show EAGAIN ≠ EINTR by decide]

/-- Any other error is the end. -/
theorem retried_of_ne (hintr : err ≠ EINTR) (hagain : err ≠ EAGAIN) :
    retried sw tm err ws = false := by
  simp [retried, hintr, hagain]

/-- What an error leads to in `socket_recv`: the same with the next answer, or
the end. -/
theorem recvLoop_failed (rs : List RecvAnswer) :
    (retried .WAITFD_R tm err ws = true ∧
      recvLoop count tm (.failed err ws :: rs) = recvLoop count tm rs) ∨
    (retried .WAITFD_R tm err ws = false ∧
      ∃ e, e ≠ IO_DONE ∧ recvLoop count tm (.failed err ws :: rs) = (e, [], rs)) := by
  by_cases hintr : err = EINTR
  · subst hintr
    exact .inl ⟨retried_EINTR, by rw [recvLoop, if_pos rfl]⟩
  · by_cases hagain : err = EAGAIN
    · subst hagain
      by_cases hdone : socketWaitfd .WAITFD_R tm ws = IO_DONE
      · exact .inl ⟨by simp [retried_EAGAIN, hdone], by simp [recvLoop, hintr, hdone]⟩
      · exact .inr ⟨by simp [retried_EAGAIN, hdone], _, hdone, by simp [recvLoop, hintr, hdone]⟩
    · exact .inr ⟨retried_of_ne hintr hagain, _, err.val_ne_done,
        by simp [recvLoop, hintr, hagain]⟩

/-- The same of `socket_send`, where `EPIPE` is the end as well, and every other
error is treated as in `socket_recv`. -/
theorem sendLoop_failed (rs : List SendAnswer) :
    (retried .WAITFD_W tm err ws = true ∧
      sendLoop count tm (.failed err ws :: rs) = sendLoop count tm rs) ∨
    (retried .WAITFD_W tm err ws = false ∧
      ∃ e, e ≠ IO_DONE ∧ sendLoop count tm (.failed err ws :: rs) = (e, 0, rs)) := by
  by_cases hpipe : err = EPIPE
  · subst hpipe
    exact .inr ⟨retried_of_ne (by decide) (by decide), IO_CLOSED, by decide,
      by rw [sendLoop, if_pos rfl]⟩
  · by_cases hintr : err = EINTR
    · subst hintr
      exact .inl ⟨retried_EINTR, by rw [sendLoop, if_neg hpipe, if_pos rfl]⟩
    · by_cases hagain : err = EAGAIN
      · subst hagain
        by_cases hdone : socketWaitfd .WAITFD_W tm ws = IO_DONE
        · exact .inl ⟨by simp [retried_EAGAIN, hdone], by simp [sendLoop, hpipe, hintr, hdone]⟩
        · exact .inr ⟨by simp [retried_EAGAIN, hdone], _, hdone,
            by simp [sendLoop, hpipe, hintr, hdone]⟩
      · exact .inr ⟨retried_of_ne hintr hagain, _, err.val_ne_done,
          by simp [sendLoop, hpipe, hintr, hagain]⟩

/-- **`socket_recv` gets the next piece**, and returns `IO_DONE` if that is one.
Errors before it are passed over, by induction on the answers. -/
theorem recvLoop_spec (rs : List RecvAnswer) :
    (recvLoop count HTTP_RECV_TIMEOUT rs).2.1 = (Lib.pull count (incoming rs)).1 ∧
      incoming (recvLoop count HTTP_RECV_TIMEOUT rs).2.2 = (Lib.pull count (incoming rs)).2 ∧
      ((recvLoop count HTTP_RECV_TIMEOUT rs).1 = IO_DONE ↔
        (recvLoop count HTTP_RECV_TIMEOUT rs).2.1 ≠ []) := by
  induction rs with
  | nil => exact ⟨rfl, rfl, by simp [recvLoop, IO_TIMEOUT, IO_DONE]⟩
  | cons r rs ih =>
    cases r with
    | arrived c =>
      have hrest : incoming (if c.length ≤ count then rs else .arrived (c.drop count) :: rs) =
          if c.length ≤ count then incoming rs else c.drop count :: incoming rs := by
        split <;> rfl
      by_cases hpos : 0 < (c.take count).length
      · rw [recvLoop, if_pos hpos]
        exact ⟨rfl, hrest, by simpa using List.length_pos_iff.1 hpos⟩
      · have hnil : c.take count = [] := List.length_eq_zero_iff.1 (by omega)
        rw [recvLoop, if_neg hpos]
        exact ⟨hnil.symm, hrest, by simp [IO_CLOSED, IO_DONE]⟩
    | failed err ws =>
      rcases @recvLoop_failed count _ err ws rs with ⟨hr, heq⟩ | ⟨hr, e, hne, heq⟩
      · rw [heq, incoming, if_pos hr]
        exact ih
      · rw [heq, incoming, if_neg (by simp [hr])]
        exact ⟨by simp [Lib.pull], by simp [Lib.pull], by simp [hne]⟩

/-- **`socket_send` has the next part accepted**, and returns `IO_DONE` if that
is one. -/
theorem sendLoop_spec (data : Bytes) (rs : List SendAnswer) :
    (sendLoop data.length HTTP_SEND_TIMEOUT rs).2.1 =
        (Http.socketSend ⟨[], accepts rs, []⟩ data).1 ∧
      accepts (sendLoop data.length HTTP_SEND_TIMEOUT rs).2.2 = (accepts rs).tail ∧
      ((sendLoop data.length HTTP_SEND_TIMEOUT rs).1 = IO_DONE ↔
        0 < (sendLoop data.length HTTP_SEND_TIMEOUT rs).2.1) := by
  induction rs with
  | nil =>
    rw [sendLoop]
    split_ifs with hpos
    · exact ⟨rfl, rfl, by simp [hpos]⟩
    · have hnil : data.length = 0 := by omega
      exact ⟨hnil.symm, rfl, by simp [IO_CLOSED, IO_DONE]⟩
  | cons r rs ih =>
    cases r with
    | accepted room =>
      rw [sendLoop]
      split_ifs with hpos
      · exact ⟨rfl, rfl, by simp only [hpos]⟩
      · have hzero : min room data.length = 0 := by omega
        exact ⟨hzero.symm, rfl, by simp [IO_CLOSED, IO_DONE]⟩
    | failed err ws =>
      rcases @sendLoop_failed data.length _ err ws rs with ⟨hr, heq⟩ | ⟨hr, e, hne, heq⟩
      · rw [heq, accepts, if_pos hr]
        exact ih
      · rw [heq, accepts, if_neg (by simp [hr])]
        exact ⟨(Nat.zero_min _).symm, rfl, by simp [hne]⟩

end Loops

section Calls

variable {h : Handle} {count : ℕ} {data : Bytes}

/-- **A receive of the program is a receive of its pieces**: it gets the same
bytes and leaves the same pieces. -/
theorem socketRecv_toSocket (count : ℕ) (hfd : h.fd ≠ SOCKET_INVALID) :
    (socketRecv h count HTTP_RECV_TIMEOUT).2.1 = (Http.socketRecv h.toSocket count).1 ∧
      (socketRecv h count HTTP_RECV_TIMEOUT).2.2.toSocket =
        (Http.socketRecv h.toSocket count).2 := by
  obtain ⟨hgot, hrest, -⟩ := @recvLoop_spec count h.recvs
  rw [socketRecv, if_neg hfd]
  exact ⟨hgot, by simp [Handle.toSocket, Http.socketRecv, hrest]⟩

/-- **It returns `IO_DONE` when it got something, and only then.** -/
theorem socketRecv_done :
    (socketRecv h count HTTP_RECV_TIMEOUT).1 = IO_DONE ↔
      (socketRecv h count HTTP_RECV_TIMEOUT).2.1 ≠ [] := by
  rw [socketRecv]
  split_ifs with hfd
  · simp [IO_CLOSED, IO_DONE]
  · exact (recvLoop_spec h.recvs).2.2

/-- **A send of the program is one of `accepts`**: as much of it is accepted,
and the same is left for the next ones. -/
theorem socketSend_toSocket (data : Bytes) (hfd : h.fd ≠ SOCKET_INVALID) :
    (socketSend h data HTTP_SEND_TIMEOUT).2.1 = (Http.socketSend h.toSocket data).1 ∧
      (socketSend h data HTTP_SEND_TIMEOUT).2.2.toSocket =
        (Http.socketSend h.toSocket data).2 := by
  obtain ⟨hsent, hrest, -⟩ := sendLoop_spec data h.sends
  rw [socketSend, if_neg hfd]
  refine ⟨hsent, ?_⟩
  simp only [Handle.toSocket, hsent, hrest]
  rfl

/-- It returns `IO_DONE` when something was accepted, and only then. -/
theorem socketSend_done :
    (socketSend h data HTTP_SEND_TIMEOUT).1 = IO_DONE ↔
      0 < (socketSend h data HTTP_SEND_TIMEOUT).2.1 := by
  rw [socketSend]
  split_ifs with hfd
  · simp [IO_CLOSED, IO_DONE]
  · exact (sendLoop_spec data h.sends).2.2

end Calls

/-! ### Programs -/

/-- A program on one socket: it may choose each call by what the calls before it
got.  As all callers in `libhttpd/http_sendrecv.c`, it looks at what was
received and at how much was sent, and not at the value returned. -/
inductive Client (α : Type)
  | done (a : α)
  | recv (count : ℕ) (k : Bytes → Client α)
  | send (data : Bytes) (k : ℕ → Client α)

namespace Client

variable {α : Type}

/-- The program on a socket of Linux. -/
def onHandle : Client α → Handle → α × Handle
  | .done a, h => (a, h)
  | .recv count k, h =>
    let r := socketRecv h count HTTP_RECV_TIMEOUT
    (k r.2.1).onHandle r.2.2
  | .send data k, h =>
    let r := socketSend h data HTTP_SEND_TIMEOUT
    (k r.2.1).onHandle r.2.2

/-- The program on what it sees of the socket. -/
def onSocket : Client α → Socket → α × Socket
  | .done a, h => (a, h)
  | .recv count k, h =>
    let r := Http.socketRecv h count
    (k r.1).onSocket r.2
  | .send data k, h =>
    let r := Http.socketSend h data
    (k r.1).onSocket r.2

/-- What the program received, in order. -/
def received : Client α → Handle → Bytes
  | .done _, _ => []
  | .recv count k, h =>
    let r := socketRecv h count HTTP_RECV_TIMEOUT
    r.2.1 ++ (k r.2.1).received r.2.2
  | .send data k, h =>
    let r := socketSend h data HTTP_SEND_TIMEOUT
    (k r.2.1).received r.2.2

/-- What was accepted of what the program sent, in order. -/
def accepted : Client α → Handle → Bytes
  | .done _, _ => []
  | .recv count k, h =>
    let r := socketRecv h count HTTP_RECV_TIMEOUT
    (k r.2.1).accepted r.2.2
  | .send data k, h =>
    let r := socketSend h data HTTP_SEND_TIMEOUT
    data.take r.2.1 ++ (k r.2.1).accepted r.2.2

end Client

section Programs

variable {α : Type} {h : Handle} {count tm : ℕ} {data : Bytes}

/-- A receive does not change the descriptor. -/
@[simp] theorem socketRecv_fd : (socketRecv h count tm).2.2.fd = h.fd := by
  rw [socketRecv]
  split <;> rfl

/-- Nor does a send. -/
@[simp] theorem socketSend_fd : (socketSend h data tm).2.2.fd = h.fd := by
  rw [socketSend]
  split <;> rfl

/-- The bytes that the kernel has for the program. -/
def arrivals : List RecvAnswer → Bytes
  | [] => []
  | .arrived c :: rs => c ++ arrivals rs
  | .failed _ _ :: rs => arrivals rs

/-- The pieces are the bytes that arrive: errors bring none. -/
theorem flatten_incoming (rs : List RecvAnswer) : (incoming rs).flatten = arrivals rs := by
  induction rs with
  | nil => rfl
  | cons r rs ih =>
    cases r with
    | arrived c => rw [incoming, List.flatten_cons, ih, arrivals]
    | failed err ws =>
      rw [incoming, arrivals, ← ih]
      split <;> rfl

/-- No byte that has arrived is lost in a receive: what it leaves of a piece
comes first in the next one. -/
theorem socketRecv_arrivals (count : ℕ) (hfd : h.fd ≠ SOCKET_INVALID) :
    (socketRecv h count HTTP_RECV_TIMEOUT).2.1 ++
      arrivals (socketRecv h count HTTP_RECV_TIMEOUT).2.2.recvs = arrivals h.recvs := by
  obtain ⟨hgot, hrest⟩ := socketRecv_toSocket count hfd
  have hincoming : incoming (socketRecv h count HTTP_RECV_TIMEOUT).2.2.recvs =
      (Lib.pull count (incoming h.recvs)).2 := congrArg Socket.incoming hrest
  rw [← flatten_incoming, ← flatten_incoming, hincoming, hgot]
  exact Lib.append_flatten_pull count (incoming h.recvs)

/-- A receive sends nothing. -/
theorem socketRecv_sent : (socketRecv h count tm).2.2.sent = h.sent := by
  rw [socketRecv]
  split <;> rfl

/-- A send takes nothing of what has arrived, and adds what was accepted. -/
theorem socketSend_moved (data : Bytes) (tm : ℕ) (hfd : h.fd ≠ SOCKET_INVALID) :
    (socketSend h data tm).2.2.recvs = h.recvs ∧
      (socketSend h data tm).2.2.sent = h.sent ++ data.take (socketSend h data tm).2.1 := by
  rw [socketSend, if_neg hfd]
  exact ⟨rfl, rfl⟩

/-- **No program can tell the sockets of Linux from its own**, whatever the
kernel answers: interrupted calls and waits leave no trace, and every other
failure is a call that moves nothing.  What it received and what is left is what
arrived, and what was accepted is what the peer gets, in order and without a
gap.  The descriptor is taken to be below `FD_SETSIZE` (1024): for a greater one
`FD_SET` of `socket_waitfd` writes behind its `fd_set`, which has no place in
this model. -/
theorem client_refines (p : Client α) (hfd : h.fd ≠ SOCKET_INVALID) :
    (p.onHandle h).1 = (p.onSocket h.toSocket).1 ∧
      (p.onHandle h).2.toSocket = (p.onSocket h.toSocket).2 ∧
      p.received h ++ arrivals (p.onHandle h).2.recvs = arrivals h.recvs ∧
      (p.onHandle h).2.sent = h.sent ++ p.accepted h := by
  induction p generalizing h with
  | done a => exact ⟨rfl, rfl, rfl, (List.append_nil _).symm⟩
  | recv count k ih =>
    obtain ⟨hgot, hnext⟩ := socketRecv_toSocket count hfd
    have harrivals := socketRecv_arrivals count hfd
    have hrest := ih (socketRecv h count HTTP_RECV_TIMEOUT).2.1
      (h := (socketRecv h count HTTP_RECV_TIMEOUT).2.2) (by rwa [socketRecv_fd])
    rw [hnext, hgot, socketRecv_sent] at hrest
    obtain ⟨h₁, h₂, h₃, h₄⟩ := hrest
    simp only [Client.onHandle, Client.onSocket, Client.received, Client.accepted, hgot]
    refine ⟨h₁, h₂, ?_, h₄⟩
    rw [List.append_assoc, h₃, ← hgot, harrivals]
  | send data k ih =>
    obtain ⟨hsent, hnext⟩ := socketSend_toSocket data hfd
    obtain ⟨hrecvs, hmoved⟩ := socketSend_moved data HTTP_SEND_TIMEOUT hfd
    have hrest := ih (socketSend h data HTTP_SEND_TIMEOUT).2.1
      (h := (socketSend h data HTTP_SEND_TIMEOUT).2.2) (by rwa [socketSend_fd])
    rw [hnext, hrecvs, hmoved, hsent] at hrest
    obtain ⟨h₁, h₂, h₃, h₄⟩ := hrest
    simp only [Client.onHandle, Client.onSocket, Client.received, Client.accepted, hsent]
    exact ⟨h₁, h₂, h₃, by rw [h₄, List.append_assoc]⟩

/-- Satisfiability: a program that receives twice and answers, on a socket whose
second receive is interrupted and then waits. -/
theorem client_refines_echo :
    let p : Client Bytes := .recv 4 fun a => .recv 4 fun b => .send (a ++ b) fun _ => .done (a ++ b)
    let h : Handle := ⟨3, [.arrived [1, 2], .failed EINTR [], .failed EAGAIN [.ready true],
      .arrived [3]], [.failed EAGAIN [.failed EINTR, .ready false], .accepted 2], []⟩
    (p.onHandle h).1 = (p.onSocket h.toSocket).1 ∧
      (p.onHandle h).2.toSocket = (p.onSocket h.toSocket).2 ∧
      p.received h ++ arrivals (p.onHandle h).2.recvs = arrivals h.recvs ∧
      (p.onHandle h).2.sent = h.sent ++ p.accepted h :=
  client_refines _ (by decide)

end Programs

end Libsocket
end Dukserver
