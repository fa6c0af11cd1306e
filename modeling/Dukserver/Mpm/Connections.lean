/-
# A connection from accept to close

`libhttpd/http_server.c`, `httpd_accept` and `httpd_close`, and `libhttpd/http_mpm.c`,
`_worker_frontend` with the pass of `_worker_accepter` that starts it: the whole life of a
connection, and the blocks of memory that it takes and gives back.

Every round takes a part of what the peer has sent (`frontendRound_settles`), so the loop
ends whatever that is, and behind it the ledger is what it was before the connection, but
for a content that the callback of its last round has begun and dropped
(`connection_balanced`): `_get_response` of `libhttpd/wsgi_server.c` returns `NULL` without
deleting the content where `__headers__` is no object.  Other connections and the fastcgi
thread are in the blocks `M` that nobody here touches.
-/

import Dukserver.Http.ByCalls
import Dukserver.Mpm.Session

namespace Dukserver
namespace Mpm

open Lib (Bytes SameOutcome ascii sprintfD)
open Lib.Effects (Ends ends_pure)
open Sys (Alloc Allocator Heap Owns httpMalloc httpFree MEMORY_LEN)
open Http

/-! ### The rounds -/

/-- What `process_cb` answers: a content, built by the calls, or `NULL`.  Then
it may have begun a content and left it behind, as `_get_response` does with the
one it has started before it finds that `__headers__` is no object.  A mutex or
an event that fails counts as `NULL` with nothing left behind. -/
inductive Answer
  | content (calls : List ResponseCall)
  | null (lost : Option (List ResponseCall))

/-- The response, if there is one. -/
def Answer.response : Answer → Option (List ResponseCall)
  | .content calls => some calls
  | .null _ => none

/-- The content that is left behind, if there is one. -/
def Answer.lost : Answer → Option (List ResponseCall)
  | .content _ => none
  | .null lost => lost

/-- What the outside adds to a round of `_worker_frontend`. -/
structure Round where
  env : RecvEnv
  date : Bytes
  process : HttpContent → Answer

/-- The callback of the round makes at most `k` calls for a content. -/
def Round.Within (r : Round) (k : ℕ) : Prop := ∀ req calls,
  (r.process req).response = some calls ∨ (r.process req).lost = some calls → calls.length ≤ k

/-- The loop of `_worker_frontend` from round `n` on: the connection that it
closes. -/
def frontendLoop (rounds : ℕ → Round) : ℕ → ℕ → HttpConnection → Except Fault HttpConnection
  | 0, _, _ => .error .outOfFuel
  | fuel + 1, n, conn =>
    match frontendRound (rounds n).env (rounds n).date
      (fun req => ((rounds n).process req).response) conn with
    | .error e => .error e
    | .ok (_, conn, alive) => if alive then frontendLoop rounds fuel (n + 1) conn else .ok conn

/-- A pass of `_worker_accepter` with the frontend that it starts: the
connection that is closed in the end. -/
def acceptPass (rounds : ℕ → Round) (fuel : ℕ) : Option Peer → Except Fault (Option HttpConnection)
  | none => .ok none
  | some peer =>
    match frontendLoop rounds fuel 0 peer.toConnection with
    | .error e => .error e
    | .ok conn => .ok (some conn)

section Rounds

variable {conn : HttpConnection} {ct : HttpContent}

/-- Sending comes to an end and takes nothing of what is pending: it sends a
header block, and then the blocks of the body. -/
theorem httpSendResponse_settles :
    Settles (fun r => r.2.1.handle.pending = conn.handle.pending) (httpSendResponse conn ct) := by
  unfold httpSendResponse
  split
  · simp only
    generalize completeResponse _ ct = ct'
    split_ifs
    · exact .error (by simp)
    · have hload := load_settles ct' ct'.body
      generalize ct'.load ct'.body = loaded at hload
      cases hload with
      | error he => exact .error he
      | ok _ => exact .ok (by simp [Socket.pending, httpSendBinary, socketSend])
    · exact .ok rfl
  · exact .ok rfl

/-- **A round comes to an end**, and if the loop goes on it has taken a part of
what was pending. -/
theorem frontendRound_settles (env : RecvEnv) (date : Bytes)
    (process : HttpContent → Option (List ResponseCall)) (conn : HttpConnection) :
    Settles (fun r => r.2.2 = true → r.2.1.handle.pending < conn.handle.pending)
      (frontendRound env date process conn) := by
  have hrecv := httpRecvRequest_settles env conn
  rw [frontendRound]
  generalize httpRecvRequest env conn = received at hrecv
  cases hrecv with
  | error he => exact .error he
  | @ok r hr =>
    simp only
    cases hct : r.content with
    | none => exact .ok fun halive => absurd halive Bool.false_ne_true
    | some ct =>
      have hless := hr.2 (by rw [hct]; rfl)
      simp only
      generalize buildResponse _ = res
      have hsend := @httpSendResponse_settles r.conn res
      generalize httpSendResponse r.conn res = sent at hsend
      cases hsend with
      | error he => exact .error he
      | ok hsame => exact .ok fun _ => hsame ▸ hless

/-- **The loop ends**, after at most one round more than there are pending
bytes: every round that goes on has received a request, and so taken a byte. -/
theorem frontendLoop_settles (rounds : ℕ → Round) {fuel n : ℕ}
    (hfuel : conn.handle.pending < fuel) :
    Settles (fun _ => True) (frontendLoop rounds fuel n conn) := by
  induction fuel generalizing n conn with
  | zero => omega
  | succ fuel ih =>
    have hround := frontendRound_settles (rounds n).env (rounds n).date
      (fun req => ((rounds n).process req).response) conn
    rw [frontendLoop]
    generalize frontendRound _ _ _ conn = r at hround
    cases hround with
    | error he => exact .error he
    | @ok r hr =>
      obtain ⟨received, conn', alive⟩ := r
      simp only
      split_ifs with halive
      · have hless := hr halive
        exact ih (by simp only at hless; omega)
      · exact .ok trivial

/-- A pass of the accepter ends.  The loop of the frontend takes something of
what the peer has sent in every round, and there is only so much of it. -/
theorem acceptPass_settles (rounds : ℕ → Round) {fuel : ℕ} {peer : Option Peer}
    (hfuel : ∀ p, peer = some p → p.socket.pending < fuel) :
    Settles (fun _ => True) (acceptPass rounds fuel peer) := by
  cases peer with
  | none => exact .ok trivial
  | some peer =>
    have hloop := @frontendLoop_settles peer.toConnection rounds fuel 0 (hfuel peer rfl)
    rw [acceptPass]
    generalize frontendLoop rounds fuel 0 peer.toConnection = r at hloop
    cases hloop with
    | error he => exact .error he
    | ok _ => exact .ok trivial

end Rounds

/-! ### The rounds in blocks of memory -/

namespace Blocks

open Http.Blocks (ContentT Becomes ReceivedT RECV_BLOCKS Str ConnectionT acceptedBlocks httpdAccept
  httpdClose httpdAccept_ends httpdClose_ends)

/-- The connection information that `_worker_frontend` adds to a request. -/
def prepareRequest (A : Allocator) (conn : HttpConnection) (req : ContentT) : Alloc ContentT :=
  Http.Blocks.setAll A req [(ascii "REMOTE_ADDR", some conn.host),
    (ascii "REMOTE_PORT", some (sprintfD conn.port))]

/-- A content that is begun and not deleted. -/
def leaveContent (A : Allocator) : Option (List ResponseCall) → Alloc PUnit
  | none => return ⟨⟩
  | some calls => do
    let _ ← Http.Blocks.buildResponse A calls
    return ⟨⟩

/-- A round of `_worker_frontend`: the connection, and whether the loop goes on. -/
def frontendRound (A : Allocator) (r : Round) (conn : HttpConnection) :
    Alloc (Except Fault (HttpConnection × Bool)) := do
  match ← Http.Blocks.httpRecvRequest A r.env conn with
  | .error e => return .error e
  | .ok received =>
    match received.content with
    | none => return .ok (received.conn, false)
    | some ct => do
      let req ← prepareRequest A received.conn ct
      leaveContent A (r.process req.toContent).lost
      let built := (r.process req.toContent).response
      let res ← Http.Blocks.buildResponse A (built.getD (fastcgiError r.date))
      match ← Http.Blocks.httpSendResponse A received.conn res with
      | .error e => return .error e
      | .ok (_, conn, res) => do
        Http.Blocks.httpContentDelete res
        let alive := keepAlive built req.toContent
        Http.Blocks.httpContentDelete req
        return .ok (conn, alive)

/-- The loop of `_worker_frontend`. -/
def frontendLoop (A : Allocator) (rounds : ℕ → Round) :
    ℕ → ℕ → HttpConnection → Alloc (Except Fault HttpConnection)
  | 0, _, _ => return .error .outOfFuel
  | fuel + 1, n, conn => do
    match ← frontendRound A (rounds n) conn with
    | .error e => return .error e
    | .ok (conn, alive) =>
      if alive then frontendLoop A rounds fuel (n + 1) conn else return .ok conn

/-- Enough blocks for a round whose contents are built by `k` calls: those of
the request and its connection information, of the response and of sending it,
and of a content that is left behind. -/
def roundBlocks (k : ℕ) : ℕ := RECV_BLOCKS + 4 + (9 + 12 * k) + (9 + 12 * k) + 3

/-- The blocks of a content that is left behind. -/
def LeftContent (lost : Option (List ResponseCall)) (L : Sys.Blocks) : Prop :=
  lost.elim (L = 0) fun calls => ∃ ct : ContentT, ct.toContent = Http.buildResponse calls ∧
    L = ct.blocks

/-- The blocks that a connection leaves behind: none, or those of one content
that the callback of one of its rounds has dropped. -/
def Lost (rounds : ℕ → Round) (L : Sys.Blocks) : Prop :=
  L = 0 ∨ ∃ n req, ((rounds n).process req).lost ≠ none ∧
    LeftContent ((rounds n).process req).lost L

/-- A callback that drops no content leaves no block. -/
theorem Lost.eq_zero {rounds : ℕ → Round} {L : Sys.Blocks} (h : Lost rounds L)
    (hkeeps : ∀ n req, ((rounds n).process req).lost = none) : L = 0 := by
  rcases h with hzero | ⟨n, req, hlost, -⟩
  · exact hzero
  · exact absurd (hkeeps n req) hlost

/-- What a round leaves, the connection leaves. -/
theorem lost_of_leftContent {rounds : ℕ → Round} {n : ℕ} {req : HttpContent} {L : Sys.Blocks}
    (hL : LeftContent ((rounds n).process req).lost L) : Lost rounds L := by
  by_cases hnone : ((rounds n).process req).lost = none
  · rw [hnone] at hL
    exact .inl hL
  · exact .inr ⟨n, req, hnone, hL⟩

/-- A callback that answers with a content leaves none behind, so it is the last
round that does: `NULL` ends the loop. -/
theorem LeftContent.eq_zero {a : Answer} {L : Sys.Blocks} (hL : LeftContent a.lost L)
    (hsome : a.response.isSome = true) : L = 0 := by
  cases a with
  | content calls => exact hL
  | null lost => cases hsome

section Rounds

variable {A : Allocator} {h : Heap} {M : Sys.Blocks} {ct : ContentT} {conn : HttpConnection}
  {k : ℕ}

/-- The address of the peer is set as two more entries, which own four blocks at
most. -/
theorem prepareRequest_ends (ho : Owns h (ct.blocks + M))
    (hroom : (ct.blocks + M).card + 4 ≤ MEMORY_LEN) :
    Ends (prepareRequest A conn ct) h (Becomes M 4 ct (Mpm.prepareRequest conn ct.toContent)) :=
  Http.Blocks.setAll_ends _ ho hroom

/-- What is begun and dropped stays in the ledger: the content as it was when
the callback gave it up. -/
theorem leaveContent_ends {lost : Option (List ResponseCall)} (ho : Owns h M)
    (hlen : ∀ calls, lost = some calls → calls.length ≤ k)
    (hroom : M.card + (9 + 12 * k) ≤ MEMORY_LEN) :
    Ends (leaveContent A lost) h fun _ t => ∃ L, LeftContent lost L ∧ L.card ≤ 9 + 12 * k ∧
      Owns t (L + M) := by
  cases lost with
  | none => exact ends_pure ⟨0, rfl, Nat.zero_le _, ho.of_eq (zero_add M).symm⟩
  | some calls =>
    have hk := hlen calls rfl
    refine (Http.Blocks.buildResponse_ends ho calls (by omega)).seq ?_
    rintro ct t ⟨ht, hcard, hbuilt⟩
    exact ends_pure ⟨ct.blocks, ⟨ct, hbuilt, rfl⟩, by omega, ht⟩

/-- **A round leaves no block behind**, however it ends, but those of a content
that its callback has dropped, and then the loop ends; and it does what it does
without the addresses. -/
theorem frontendRound_ends {r : Round} (ho : Owns h M) (hk : 2 ≤ k) (hbuilt : r.Within k)
    (hroom : M.card + roundBlocks k ≤ MEMORY_LEN) :
    Ends (frontendRound A r conn) h fun q t =>
      SameOutcome (fun p q => q = p.2 ∧ ∃ L, (q.2 = true → L = 0) ∧ Lost (fun _ => r) L ∧
          Owns t (L + M))
        (Mpm.frontendRound r.env r.date (fun req => (r.process req).response) conn) q := by
  rw [roundBlocks] at hroom
  rw [Mpm.frontendRound]
  refine (Http.Blocks.httpRecvRequest_ends ho (by omega)).seq fun received t hrecv => ?_
  generalize Http.httpRecvRequest r.env conn = p at hrecv
  cases hrecv with
  | error e => exact ends_pure (.error e)
  | @ok p received hsame =>
    obtain ⟨rfl, howns, hcard⟩ := hsame
    obtain ⟨content, conn, tmpfile⟩ := received
    cases content with
    | none => exact ends_pure (.ok ⟨rfl, 0, fun _ => rfl, .inl rfl, howns⟩)
    | some ct =>
      have hreceived : (ct.blocks + M).card ≤ RECV_BLOCKS + M.card := by
        rw [Multiset.card_add]
        exact Nat.add_le_add_right hcard _
      refine (prepareRequest_ends howns (by omega)).seq fun req t hreq => ?_
      have hcardReq := hreq.card
      simp only [Multiset.card_add] at hreceived
      simp only [ReceivedT.toReceived, Option.map_some, ← hreq.toContent]
      have hanswer := hbuilt req.toContent
      have hlost := @lost_of_leftContent (fun _ => r) 0 req.toContent
      generalize r.process req.toContent = answer at hanswer hlost
      refine (leaveContent_ends hreq.owns (fun calls hc => hanswer calls (.inr hc)) (by
        rw [Multiset.card_add]; omega)).seq ?_
      rintro - t ⟨L, hL, hcardL, ht⟩
      have hlen : (answer.response.getD (fastcgiError r.date)).length ≤ k := by
        cases hcalls : answer.response with
        | none => exact hk
        | some calls => exact hanswer calls (.inl hcalls)
      refine (Http.Blocks.buildResponse_ends ht (answer.response.getD (fastcgiError r.date)) (by
        simp only [Multiset.card_add]; omega)).seq ?_
      rintro res t ⟨hres, hcardRes, hsame⟩
      refine (Http.Blocks.httpSendResponse_ends hres (by
        simp only [Multiset.card_add]; omega) conn).seq fun sent t hsent => ?_
      rw [hsame] at hsent
      generalize Http.httpSendResponse conn _ = q at hsent
      cases hsent with
      | error e => exact ends_pure (.error e)
      | @ok q sent hsent =>
        obtain ⟨-, hconn, hbecomes⟩ := hsent
        refine (Http.Blocks.httpContentDelete_ends hbecomes.owns).seq fun _ t ht => ?_
        refine (Http.Blocks.httpContentDelete_ends (ht.of_eq (add_left_comm L req.blocks M))).seq
          fun _ t ht => ends_pure (.ok ⟨by rw [hconn], L, fun halive => ?_, hlost hL, ht⟩)
        exact hL.eq_zero (Bool.and_eq_true_iff.1 halive).1

/-- **No round but the last leaves a block behind.**  A round that has no
response to send ends the loop, and only such a round can have dropped a
content. -/
theorem frontendLoop_ends {rounds : ℕ → Round} {fuel n : ℕ} (ho : Owns h M) (hk : 2 ≤ k)
    (hbuilt : ∀ n, (rounds n).Within k) (hroom : M.card + roundBlocks k ≤ MEMORY_LEN) :
    Ends (frontendLoop A rounds fuel n conn) h fun q t =>
      SameOutcome (fun c c' => c' = c ∧ ∃ L, Lost rounds L ∧ Owns t (L + M))
        (Mpm.frontendLoop rounds fuel n conn) q := by
  induction fuel generalizing n conn h with
  | zero => exact ends_pure (.error _)
  | succ fuel ih =>
    rw [Mpm.frontendLoop]
    refine (frontendRound_ends ho hk (hbuilt n) hroom).seq fun q t hq => ?_
    generalize Mpm.frontendRound _ _ _ conn = p at hq
    cases hq with
    | error e => exact ends_pure (.error e)
    | @ok p q hsame =>
      obtain ⟨rfl, L, hzero, hlost, ht⟩ := hsame
      obtain ⟨received, conn', alive⟩ := p
      simp only at hzero ⊢
      split_ifs with halive
      · rw [hzero halive] at ht
        exact ih (ht.of_eq (zero_add M))
      · refine ends_pure (.ok ⟨rfl, L, hlost.imp_right ?_, ht⟩)
        rintro ⟨_, req, hreq⟩
        exact ⟨n, req, hreq⟩

end Rounds

/-! ### The connection -/

/-- `sizeof(http_mpm_handle_t)`. -/
def MPM_HANDLE_SIZE : ℤ := 120

/-- `_worker_frontend`. -/
def workerFrontend (A : Allocator) (rounds : ℕ → Round) (fuel cfg : ℕ) (c : ConnectionT) :
    Alloc (Except Fault HttpConnection) := do
  match ← frontendLoop A rounds fuel 0 c.toConnection with
  | .error e => return .error e
  | .ok conn => do
    httpdClose c
    httpFree cfg
    return .ok conn

/-- A pass of `_worker_accepter` with the frontend that it starts. -/
def acceptPass (A : Allocator) (rounds : ℕ → Round) (fuel : ℕ) (peer : Option Peer) :
    Alloc (Except Fault (Option HttpConnection)) := do
  match ← httpdAccept A peer with
  | none => return .ok none
  | some c => do
    let cfg ← httpMalloc A MPM_HANDLE_SIZE
    match ← workerFrontend A rounds fuel cfg c with
    | .error e => return .error e
    | .ok conn => return .ok (some conn)

section Connection

variable {A : Allocator} {h : Heap} {M : Sys.Blocks} {c : ConnectionT} {k : ℕ}

/-- The frontend closes its connection and frees its handle, whatever its rounds
were. -/
theorem workerFrontend_ends {rounds : ℕ → Round} {fuel cfg : ℕ}
    (ho : Owns h (c.blocks + (Sys.block cfg MPM_HANDLE_SIZE + M))) (hk : 2 ≤ k)
    (hbuilt : ∀ n, (rounds n).Within k) (hroom : M.card + (4 + roundBlocks k) ≤ MEMORY_LEN) :
    Ends (workerFrontend A rounds fuel cfg c) h fun r t =>
      SameOutcome (fun c₁ c₂ => c₂ = c₁ ∧ ∃ L, Lost rounds L ∧ Owns t (L + M))
        (Mpm.frontendLoop rounds fuel 0 c.toConnection) r := by
  refine (frontendLoop_ends ho hk hbuilt ?_).seq fun r t hr => ?_
  · simp only [ConnectionT.blocks, Str.block, Multiset.card_add, Sys.card_block]
    omega
  · generalize Mpm.frontendLoop rounds fuel 0 c.toConnection = p at hr
    cases hr with
    | error e => exact ends_pure (.error e)
    | ok hsame =>
      obtain ⟨rfl, L, hlost, ht⟩ := hsame
      rw [add_left_comm] at ht
      refine (httpdClose_ends ht).seq fun _ t ht => ?_
      rw [add_left_comm] at ht
      exact (Sys.httpFree_ends ht).seq fun _ t ht => ends_pure (.ok ⟨rfl, L, hlost, ht⟩)

/-- A pass of the accepter leaves no block behind but those of a content that a
callback has dropped, and does what it does without the addresses. -/
theorem acceptPass_ends {rounds : ℕ → Round} (A : Allocator) (fuel : ℕ) (peer : Option Peer)
    (ho : Owns h M) (hk : 2 ≤ k) (hbuilt : ∀ n, (rounds n).Within k)
    (hroom : M.card + (4 + roundBlocks k) ≤ MEMORY_LEN) :
    Ends (acceptPass A rounds fuel peer) h fun r t =>
      SameOutcome (fun c c' => c' = c ∧ ∃ L, Lost rounds L ∧ Owns t (L + M))
        (Mpm.acceptPass rounds fuel peer) r := by
  refine (httpdAccept_ends ho (by omega) peer).seq ?_
  rintro c t ⟨ht, hpeer⟩
  cases peer with
  | none =>
    obtain rfl : c = none := by simpa using hpeer
    exact ends_pure (.ok ⟨rfl, 0, .inl rfl, ht⟩)
  | some peer =>
    obtain ⟨c, rfl, hc⟩ := Option.map_eq_some_iff.1 hpeer
    have hthree : (acceptedBlocks (some c) + M).card = 3 + M.card := by
      simp only [acceptedBlocks, ConnectionT.blocks, Str.block, Multiset.card_add,
        Sys.card_block]
    refine (Sys.httpMalloc_ends ht (by omega) MPM_HANDLE_SIZE).seq fun cfg t hcfg => ?_
    rw [show Sys.block cfg MPM_HANDLE_SIZE + (acceptedBlocks (some c) + M) =
      c.blocks + (Sys.block cfg MPM_HANDLE_SIZE + M) by rw [acceptedBlocks]; abel] at hcfg
    refine (workerFrontend_ends hcfg hk hbuilt hroom).seq fun r t hr => ?_
    rw [hc] at hr
    rw [Mpm.acceptPass]
    generalize Mpm.frontendLoop rounds fuel 0 peer.toConnection = p at hr
    cases hr with
    | error e => exact ends_pure (.error e)
    | ok hsame => exact ends_pure (.ok ⟨congrArg some hsame.1, hsame.2⟩)

/-- A peer with two requests in three segments. -/
def twoRequests : Peer where
  ip := (127, 0, 0, 1)
  port := 5000
  socket := ⟨[ascii "GET /a HT", ascii "TP/1.1\r\n\r\n", ascii "GET /b HTTP/1.0\r\n\r\n"], [], []⟩

/-- The first request gets a page; for the others the callback begins a response
and finds no headers. -/
def pageRounds : ℕ → Round := fun n =>
  ⟨plainEnv, ascii "Fri, 01 Jan 2016 12:00:00 UTC", fun _ =>
    if n = 0 then .content cookiePage
    else .null (some [.start (ascii "Fri, 01 Jan 2016 12:00:00 UTC", 200)])⟩

/-- The rounds make no more calls than the page. -/
theorem pageRounds_within (n : ℕ) : (pageRounds n).Within 10 := by
  intro req calls hcalls
  simp only [pageRounds] at hcalls
  split_ifs at hcalls
  · obtain hcalls | hcalls := hcalls
    · obtain rfl := Option.some.inj hcalls
      decide
    · cases hcalls
  · obtain hcalls | hcalls := hcalls
    · cases hcalls
    · obtain rfl := Option.some.inj hcalls
      decide

end Connection

section ByCalls

open Sys (ByCalls)

instance byCalls_prepareRequest (conn : HttpConnection) (req : ContentT) :
    ByCalls fun A => prepareRequest A conn req := by
  unfold prepareRequest
  infer_instance

instance byCalls_leaveContent (lost : Option (List ResponseCall)) :
    ByCalls fun A => leaveContent A lost := by
  cases lost with
  | none => exact Sys.byCalls_pure _
  | some calls =>
    unfold leaveContent
    infer_instance

instance byCalls_frontendRound (r : Round) (conn : HttpConnection) :
    ByCalls fun A => frontendRound A r conn := by
  unfold frontendRound
  refine .seq inferInstance fun received => ?_
  rcases received with e | ⟨_ | ct, conn', tmpfile⟩
  · infer_instance
  · infer_instance
  refine .seq inferInstance fun req => .seq inferInstance fun _ => .seq inferInstance fun res =>
    .seq inferInstance fun sent => ?_
  rcases sent with e | ⟨ret, conn'', res'⟩
  · infer_instance
  · simp only
    infer_instance

instance byCalls_frontendLoop (rounds : ℕ → Round) (fuel n : ℕ) (conn : HttpConnection) :
    ByCalls fun A => frontendLoop A rounds fuel n conn := by
  induction fuel generalizing n conn with
  | zero => exact Sys.byCalls_pure _
  | succ fuel ih =>
    unfold frontendLoop
    refine .seq inferInstance fun r => ?_
    rcases r with e | ⟨conn', alive⟩
    · infer_instance
    · simp only
      infer_instance

instance byCalls_workerFrontend (rounds : ℕ → Round) (fuel cfg : ℕ) (c : ConnectionT) :
    ByCalls fun A => workerFrontend A rounds fuel cfg c := by
  unfold workerFrontend
  refine .seq inferInstance fun r => ?_
  rcases r with e | conn
  · infer_instance
  · simp only
    infer_instance

instance byCalls_acceptPass (rounds : ℕ → Round) (fuel : ℕ) (peer : Option Peer) :
    ByCalls fun A => acceptPass A rounds fuel peer := by
  unfold acceptPass
  refine .seq inferInstance fun c => ?_
  rcases c with _ | c
  · infer_instance
  · refine .seq inferInstance fun cfg => .seq inferInstance fun r => ?_
    rcases r with e | conn
    · infer_instance
    · infer_instance

end ByCalls

end Blocks

end Mpm
end Dukserver
