/-
# Receiving a message in blocks of memory

`libhttpd/http_sendrecv.c`, `http_recv_body`, `http_recv_request` and `http_recv_response`,
with the blocks of the content that they allocate, fill and return, or delete when there is
no message.  For every stream of the peer they receive what they receive without the
addresses (`Http/RecvRequest.lean`), and the ledger has what the returned content owns
(`httpRecvRequest_ends`, `httpRecvResponse_ends`): nothing, if it is `NULL`.

A header block of `HTTP_MAX_BUFFER_SIZE` bytes can make a content of thousands of blocks,
and the ledger has `MEMORY_LEN` of them for all connections, hence the room.
-/

import Dukserver.Http.RecvEnds
import Dukserver.Http.SendBlocks

namespace Dukserver
namespace Http
namespace Blocks

open Lib (Bytes SameOutcome ascii atoi)
open Lib.Effects (Ends ends_pure)
open Sys (Alloc Allocator Heap Owns MEMORY_LEN)

/-- The content with the buffers and the references of `c`. -/
def ContentT.filled (ct : ContentT) (c : HttpContent) : ContentT :=
  { ct with
    headerbuf := { ct.headerbuf with buffer := c.headerbuf }
    bodybuf := { ct.bodybuf with buffer := c.bodybuf }
    header := { ct.header with ref := c.header }
    body := { ct.body with ref := c.body } }

/-- What `http_recv_body` returns and leaves behind. -/
structure RecvBodyT where
  ret : ℤ
  ct : ContentT
  conn : HttpConnection
  tmpfile : Option Bytes
  deriving DecidableEq, Repr

/-- `http_recv_body`. -/
def httpRecvBody (A : Allocator) (env : RecvEnv) (conn : HttpConnection) (ct : ContentT) :
    Alloc (Except Fault RecvBodyT) :=
  let c := ct.toContent
  match httpMapGet c.dict (ascii "Content-Length") with
  | none => return .ok ⟨0, ct, conn, none⟩
  | some contentLengthStr =>
    let contentLength := atoi contentLengthStr
    if contentLength ≤ 0 then return .ok ⟨0, ct, conn, none⟩
    else if contentLength ≤ c.body.size then
      return .ok ⟨0, ct.filled { c with body := { c.body with size := contentLength } }, conn, none⟩
    else
      let toReceived := (contentLength - c.body.size).toNat
      if (HTTP_MAX_BUFFER_SIZE : ℤ) < contentLength then do
        let ct ← httpHeader A ct HTTP_TMPFILE (some env.tmpfilename)
        if env.fopenOk then
          match c.load c.body with
          | .error e => return .error e
          | .ok copied =>
            match httpRecvFile conn.handle toReceived with
            | .error e => return .error e
            | .ok (data, handle) =>
              return .ok ⟨data.length, ct.filled { c with body := ⟨.null, contentLength⟩ },
                { conn with handle := handle }, some (copied ++ data)⟩
        else return .ok ⟨-1, ct, conn, none⟩
      else
        match c.load c.body with
        | .error e => return .error e
        | .ok copied =>
          let copiedSize := if 0 < c.body.size then c.body.size else c.bodybuf.size
          match httpRecvBinary conn.handle toReceived with
          | .error e => return .error e
          | .ok (data, handle) =>
            return .ok ⟨data.length,
              ct.filled { c with
                bodybuf := { c.bodybuf.write (copied ++ data) with
                  size := copiedSize + data.length }
                body := ⟨.bodybuf 0, contentLength⟩ },
              { conn with handle := handle }, none⟩

/-- What a receive leaves, the content with its blocks. -/
structure ReceivedT where
  content : Option ContentT
  conn : HttpConnection
  tmpfile : Option Bytes
  deriving DecidableEq, Repr

/-- The same without the addresses. -/
def ReceivedT.toReceived (r : ReceivedT) : Received :=
  ⟨r.content.map ContentT.toContent, r.conn, r.tmpfile⟩

/-- The end of `http_recv_request` and `http_recv_response`. -/
def recvBodyOf (A : Allocator) (env : RecvEnv) (conn : HttpConnection) (ct : ContentT) :
    Alloc (Except Fault ReceivedT) := do
  match ← httpRecvBody A env conn ct with
  | .error e => return .error e
  | .ok b => return .ok ⟨some b.ct, b.conn, b.tmpfile⟩

/-- The content is deleted, and `NULL` returned. -/
def noMessage (conn : HttpConnection) (ct : ContentT) : Alloc (Except Fault ReceivedT) := do
  httpContentDelete ct
  return .ok ⟨none, conn, none⟩

/-- What follows the header block `r`: it is parsed, and then the body is
received over the connection that `answer` leaves. -/
def recvParsed (A : Allocator) (type : HttpParseType) (env : RecvEnv) (r : RecvHeaders)
    (answer : HttpMap → HttpConnection → HttpConnection) (ct : ContentT) :
    Alloc (Except Fault ReceivedT) := do
  let p ← httpParseLines A type (r.ct.headerbuf.buf ++ env.uninit) r.ct.header.size.toNat ct.dict
  let ct := { ct with dict := p.2 }
  if p.1 then recvBodyOf A env (answer p.2.toMap r.conn) ct
  else noMessage r.conn ct

/-- `http_recv_request`. -/
def httpRecvRequest (A : Allocator) (env : RecvEnv) (conn : HttpConnection) :
    Alloc (Except Fault ReceivedT) := do
  let ct ← httpContentNew A
  match httpRecvHeaders conn ct.toContent with
  | .error e => return .error e
  | .ok r =>
    let ct := ct.filled r.ct
    if r.ret ≤ 0 then noMessage r.conn ct
    else recvParsed A .request env r expectContinue ct

/-- `http_recv_response`. -/
def httpRecvResponse (A : Allocator) (env : RecvEnv) (conn : HttpConnection) :
    Alloc (Except Fault ReceivedT) := do
  let ct ← httpContentNew A
  match httpRecvHeaders conn ct.toContent with
  | .error e => return .error e
  | .ok r =>
    let ct := ct.filled r.ct
    if r.ret = 0 then noMessage r.conn ct
    else if r.ct.header.ptr = .null then return .error .nullPointer
    else recvParsed A .response env r (fun _ conn => conn) ct

/-- `recvParsed` without the addresses. -/
def recvParsedOf (type : HttpParseType) (env : RecvEnv) (r : RecvHeaders)
    (answer : HttpMap → HttpConnection → HttpConnection) : Except Fault Received :=
  let p := Http.httpParseLines type (r.ct.headerbuf.buf ++ env.uninit) r.ct.header.size.toNat
    r.ct.dict
  if p.1 then Http.recvBodyOf env (answer p.2 r.conn) { r.ct with dict := p.2 }
  else .ok ⟨none, r.conn, none⟩

/-! ### What is received into -/

section Headers

variable {buf : Bytes} {ct : HttpContent} {conn : HttpConnection} {scans : List Scan}
  {r : RecvHeaders} {fuel : ℕ}

/-- A pattern that was found lies in what was received, as to read behind it is
a fault. -/
theorem le_of_matchAt {pat : Bytes} {p : ℤ} (h : matchAt buf p pat = .ok true)
    (hpat : pat ≠ []) : p + pat.length ≤ buf.length := by
  induction pat generalizing p with
  | nil => exact absurd rfl hpat
  | cons c pat ih =>
    unfold matchAt readAt at h
    split_ifs at h with hin
    simp only at h
    split_ifs at h
    · rw [List.length_cons]
      cases pat with
      | nil => rw [List.length_nil]; omega
      | cons d pat =>
        have hrest := ih h (by simp)
        push_cast
        omega
    · cases h

/-- So a header that was found does. -/
theorem le_of_findCrlfLoop {p q : ℤ} {n : ℕ} (h : findCrlfLoop buf p n = .ok (some q)) :
    q + 4 ≤ buf.length := by
  induction n generalizing p with
  | zero => cases h
  | succ n ih =>
    unfold findCrlfLoop at h
    split at h
    · cases h
    · rename_i hmatch
      cases h
      exact le_of_matchAt hmatch CRLFCRLF_ne_nil
    · exact ih h

/-- What `http_recv_headers` leaves of the content: it writes into the header
buffer. -/
structure Headed (ct : HttpContent) (r : RecvHeaders) : Prop where
  headerbuf : r.ct.headerbuf.maxsize = ct.headerbuf.maxsize
  bodybuf : r.ct.bodybuf = ct.bodybuf
  dict : r.ct.dict = ct.dict
  header : r.ct.header = ct.header ∨ r.ct.header.size ≤ ct.headerbuf.maxsize

/-- The passes leave a header that lies in the buffer, or none, and the buffer
is not filled beyond its size. -/
theorem recvHeadersLoop_headed (h : recvHeadersLoop fuel ct conn scans = .ok r)
    (hlen : ct.headerbuf.buf.length ≤ ct.headerbuf.maxsize) : Headed ct r := by
  induction fuel generalizing ct conn scans with
  | zero => cases h
  | succ fuel ih =>
    rw [recvHeadersLoop] at h
    simp only at h
    have hgot := length_socketRecv_le conn.handle (ct.headerbuf.maxsize - ct.headerbuf.buf.length)
    split at h
    · rw [← Except.ok.inj h]
      exact ⟨rfl, rfl, rfl, .inl rfl⟩
    · split at h
      · cases h
      · have hrest := ih h (by simp only [List.length_append]; omega)
        exact ⟨hrest.headerbuf, hrest.bodybuf, hrest.dict, hrest.header⟩
      · rename_i q hq
        have hle := le_of_findCrlfLoop hq
        rw [List.length_append] at hle
        rw [← Except.ok.inj h]
        exact ⟨rfl, rfl, rfl, .inr (by simp only; omega)⟩

end Headers

/-! ### What is left of the blocks -/

/-- The blocks of a received content. -/
def ReceivedT.blocks (r : ReceivedT) : Sys.Blocks :=
  match r.content with
  | none => 0
  | some ct => ct.blocks

/-- Enough blocks to receive a message: those of a new content, two for each
three bytes of a full header buffer, and the last ones of the first line and of
the temporary file. -/
def RECV_BLOCKS : ℕ := 9 + 2 * (HTTP_MAX_BUFFER_SIZE / 3 + 1) + 8

/-- The same message was received, and the ledger has what its content owns. -/
structure ReceivedSame (M : Sys.Blocks) (t : Heap) (p : Received) (q : ReceivedT) : Prop where
  same : q.toReceived = p
  owns : Owns t (q.blocks + M)
  card : q.blocks.card ≤ RECV_BLOCKS

section Receive

variable {A : Allocator} {h t : Heap} {M : Sys.Blocks} {ct : ContentT} {c : HttpContent}
  {env : RecvEnv} {conn : HttpConnection}

/-- The buffers keep their sizes, and so the content its blocks. -/
theorem ContentT.blocks_filled (hh : c.headerbuf.maxsize = ct.headerbuf.buffer.maxsize)
    (hb : c.bodybuf.maxsize = ct.bodybuf.buffer.maxsize) : (ct.filled c).blocks = ct.blocks := by
  simp only [ContentT.blocks, BufferT.blocks, ContentT.filled, hh, hb]

/-- Filling the buffers is no call of the ledger.  Their blocks were taken by
`http_content_new` with the largest size they can have. -/
theorem becomes_filled (ho : Owns h (ct.blocks + M))
    (hh : c.headerbuf.maxsize = ct.headerbuf.buffer.maxsize)
    (hb : c.bodybuf.maxsize = ct.bodybuf.buffer.maxsize) (hd : c.dict = ct.dict.toMap) :
    Becomes M 0 ct c (ct.filled c) h := by
  have hblocks := ct.blocks_filled hh hb
  refine ⟨by rwa [hblocks], by rw [hblocks]; omega, ?_⟩
  obtain ⟨headerbuf, bodybuf, header, body, dict⟩ := c
  obtain rfl := hd
  rfl

/-- Neither is setting the body behind a call that was one. -/
theorem Becomes.filled {ct₁ : ContentT} {n : ℕ} (h₁ : Becomes M n ct c ct₁ t)
    (body : HttpReference) :
    Becomes M n ct { c with body } (ct₁.filled { c with body }) t := by
  obtain rfl := h₁.toContent
  exact h₁.trans (becomes_filled h₁.owns rfl rfl rfl)

/-- **The body is received as without the addresses**; the name of a temporary
file takes at most two blocks. -/
theorem httpRecvBody_ends (ho : Owns h (ct.blocks + M))
    (hroom : (ct.blocks + M).card + 2 ≤ MEMORY_LEN) :
    Ends (httpRecvBody A env conn ct) h fun r t => SameOutcome (fun b b' => b'.ret = b.ret ∧
      b'.conn = b.conn ∧ b'.tmpfile = b.tmpfile ∧ Becomes M 2 ct b.ct b'.ct t)
        (Http.httpRecvBody env conn ct.toContent) r := by
  have hself : Becomes M 2 ct ct.toContent ct h := (Becomes.refl ho).mono (by omega)
  rw [httpRecvBody, Http.httpRecvBody]
  cases httpMapGet ct.toContent.dict (ascii "Content-Length") with
  | none => exact ends_pure (.ok ⟨rfl, rfl, rfl, hself⟩)
  | some contentLengthStr =>
    simp only
    generalize (if 0 < ct.toContent.body.size then ct.toContent.body.size
      else ct.toContent.bodybuf.size) = copiedSize
    generalize (atoi contentLengthStr - ct.toContent.body.size).toNat = toReceived
    have hset := httpHeader_ends (A := A) ho hroom HTTP_TMPFILE (some env.tmpfilename)
    split_ifs
    · exact ends_pure (.ok ⟨rfl, rfl, rfl, hself⟩)
    · exact ends_pure (.ok ⟨rfl, rfl, rfl, (becomes_filled ho rfl rfl rfl).mono (by omega)⟩)
    · refine hset.seq fun ct₁ t h₁ => ?_
      have hload : (Http.httpHeader ct.toContent HTTP_TMPFILE (some env.tmpfilename)).load
          ct.toContent.body = ct.toContent.load ct.toContent.body := rfl
      simp only [Http.httpHeader] at hload
      rw [hload]
      cases ct.toContent.load ct.toContent.body with
      | error e => exact ends_pure (.error e)
      | ok copied =>
        simp only
        cases httpRecvFile conn.handle toReceived with
        | error e => exact ends_pure (.error e)
        | ok r => exact ends_pure (.ok ⟨rfl, rfl, rfl, h₁.filled _⟩)
    · refine hset.seq fun ct₁ t h₁ => ends_pure (.ok ⟨rfl, rfl, rfl, h₁⟩)
    · cases ct.toContent.load ct.toContent.body with
      | error e => exact ends_pure (.error e)
      | ok copied =>
        simp only
        cases httpRecvBinary conn.handle toReceived with
        | error e => exact ends_pure (.error e)
        | ok r => exact ends_pure (.ok ⟨rfl, rfl, rfl,
            (becomes_filled ho rfl rfl rfl).mono (by omega)⟩)

/-- **The body is received as without the addresses**, and the content goes on
or is deleted. -/
theorem recvBodyOf_ends (ho : Owns h (ct.blocks + M))
    (hcard : ct.blocks.card + 2 ≤ RECV_BLOCKS) (hroom : M.card + RECV_BLOCKS ≤ MEMORY_LEN) :
    Ends (recvBodyOf A env conn ct) h fun r t =>
      SameOutcome (ReceivedSame M t) (Http.recvBodyOf env conn ct.toContent) r := by
  refine (httpRecvBody_ends ho (by rw [Multiset.card_add]; omega)).seq fun r t hr => ?_
  rw [Http.recvBodyOf]
  generalize Http.httpRecvBody env conn ct.toContent = body at hr
  cases hr with
  | error e => exact ends_pure (.error e)
  | @ok b b' hb =>
    obtain ⟨-, hconn, htmp, hct⟩ := hb
    refine ends_pure (.ok ⟨?_, hct.owns, hct.card.trans hcard⟩)
    rw [ReceivedT.toReceived, hconn, htmp, Option.map_some, hct.toContent]

/-- Where there is no message, the content is deleted and `NULL` returned. -/
theorem noMessage_ends (ho : Owns h (ct.blocks + M)) (conn : HttpConnection) :
    Ends (noMessage conn ct) h fun r t =>
      SameOutcome (ReceivedSame M t) (.ok ⟨none, conn, none⟩) r :=
  (httpContentDelete_ends ho).seq fun _ _ ht =>
    ends_pure (.ok ⟨rfl, ht.of_eq (zero_add M).symm, Nat.zero_le _⟩)

/-- **What was parsed is deleted with its content, or goes on with it**, so no
block is left over where the parser rejects the header. -/
theorem recvParsed_ends (type : HttpParseType) (env : RecvEnv) {r : RecvHeaders}
    (answer : HttpMap → HttpConnection → HttpConnection) (ho : Owns h (ct.blocks + M))
    (hcard : ct.blocks.card ≤ 9) (hroom : M.card + RECV_BLOCKS ≤ MEMORY_LEN)
    (hct : ct.toContent = r.ct) (hsize : r.ct.header.size ≤ HTTP_MAX_BUFFER_SIZE) :
    Ends (recvParsed A type env r answer ct) h fun q t =>
      SameOutcome (ReceivedSame M t) (recvParsedOf type env r answer) q := by
  have hblocks : ct.blocks = ct.dict.blocks + ct.shell := ct.blocks_dict ct.dict
  have hdict : r.ct.dict = ct.dict.toMap := by rw [← hct]; rfl
  rw [RECV_BLOCKS] at hroom
  rw [recvParsed, recvParsedOf, hdict]
  generalize hmem : r.ct.headerbuf.buf ++ env.uninit = mem
  rw [hblocks, add_assoc] at ho
  have hparse := httpParseLines_ends (A := A) (b := HTTP_MAX_BUFFER_SIZE / 3 + 1) type mem
    r.ct.header.size.toNat ho (by omega)
    (by rw [← add_assoc ct.dict.blocks, ← hblocks, Multiset.card_add]; omega)
  generalize Http.httpParseLines type mem r.ct.header.size.toNat ct.dict.toMap = p at hparse
  refine hparse.seq fun p' t hp => ?_
  obtain ⟨hret, hsets⟩ := hp
  obtain ⟨done, dict⟩ := p
  obtain rfl := hsets.toMap
  have hnew := ct.blocks_dict p'.2
  have howns := hsets.owns
  rw [← add_assoc, ← hnew] at howns
  have hcontent : ({ ct with dict := p'.2 } : ContentT).toContent =
      { r.ct with dict := p'.2.toMap } := by
    rw [← hct]
    rfl
  simp only [hret]
  cases done with
  | false => exact noMessage_ends howns r.conn
  | true =>
    simp only [if_true, ← hcontent]
    refine recvBodyOf_ends howns ?_ (by rw [RECV_BLOCKS]; omega)
    have hle := hsets.card
    rw [hblocks] at hcard
    rw [hnew, RECV_BLOCKS]
    simp only [Multiset.card_add] at hcard ⊢
    omega

/-- A new content into which a header block was received. -/
theorem filled_headed {r : RecvHeaders} (ho : Owns h (ct.blocks + M))
    (hnew : ct.toContent = Http.httpContentNew) (hr : httpRecvHeaders conn ct.toContent = .ok r) :
    Becomes M 0 ct r.ct (ct.filled r.ct) h ∧ r.ct.header.size ≤ HTTP_MAX_BUFFER_SIZE := by
  have hhead : Headed ct.toContent r :=
    recvHeadersLoop_headed hr (by rw [hnew]; exact Nat.zero_le _)
  refine ⟨becomes_filled ho hhead.headerbuf (by rw [hhead.bodybuf]; rfl) hhead.dict, ?_⟩
  rcases hhead.header with hheader | hle
  · rw [hheader, hnew]
    exact Int.natCast_nonneg _
  · rwa [hnew] at hle

/-- What follows the header block: the body, or the end if the parser has
rejected it. -/
theorem recvParsedOf_eq (type : HttpParseType) (env : RecvEnv) (r : RecvHeaders)
    (answer : HttpMap → HttpConnection → HttpConnection) {done : Bool} {dict : HttpMap}
    (hparse : Http.httpParseLines type (r.ct.headerbuf.buf ++ env.uninit)
      r.ct.header.size.toNat r.ct.dict = (done, dict)) :
    recvParsedOf type env r answer =
      if done then Http.recvBodyOf env (answer dict r.conn) { r.ct with dict }
      else .ok ⟨none, r.conn, none⟩ := by
  rw [recvParsedOf, hparse]

/-- **Whatever the peer sends, a request is received as without the addresses**,
and the ledger has its content, or nothing more than before. -/
theorem httpRecvRequest_ends (ho : Owns h M) (hroom : M.card + RECV_BLOCKS ≤ MEMORY_LEN) :
    Ends (httpRecvRequest A env conn) h fun q t =>
      SameOutcome (ReceivedSame M t) (Http.httpRecvRequest env conn) q := by
  refine (httpContentNew_ends ho (by rw [RECV_BLOCKS] at hroom; omega)).seq ?_
  rintro ct t ⟨ht, hcard, hnew⟩
  rw [Http.httpRecvRequest, ← hnew]
  cases hr : httpRecvHeaders conn ct.toContent with
  | error e => exact ends_pure (.error e)
  | ok r =>
    obtain ⟨hct, hsize⟩ := filled_headed ht hnew hr
    simp only
    split_ifs with hret
    · exact noMessage_ends hct.owns r.conn
    · have hparsed := recvParsed_ends (A := A) .request env expectContinue hct.owns
        (hct.card.trans hcard.le) hroom hct.toContent hsize
      unfold httpParseRequestHeaders
      cases hp : Http.httpParseLines .request (r.ct.headerbuf.buf ++ env.uninit)
        r.ct.header.size.toNat r.ct.dict with
      | mk done dict =>
        rw [recvParsedOf_eq _ _ _ _ hp] at hparsed
        cases done <;> exact hparsed

/-- **And so is a response**: what is returned owns what it has taken, also
where the parser has run without a header. -/
theorem httpRecvResponse_ends (ho : Owns h M) (hroom : M.card + RECV_BLOCKS ≤ MEMORY_LEN) :
    Ends (httpRecvResponse A env conn) h fun q t =>
      SameOutcome (ReceivedSame M t) (Http.httpRecvResponse env conn) q := by
  refine (httpContentNew_ends ho (by rw [RECV_BLOCKS] at hroom; omega)).seq ?_
  rintro ct t ⟨ht, hcard, hnew⟩
  rw [Http.httpRecvResponse, ← hnew]
  cases hr : httpRecvHeaders conn ct.toContent with
  | error e => exact ends_pure (.error e)
  | ok r =>
    obtain ⟨hct, hsize⟩ := filled_headed ht hnew hr
    simp only
    split_ifs with hret hnull
    · exact noMessage_ends hct.owns r.conn
    · exact ends_pure (.error _)
    · have hparsed := recvParsed_ends (A := A) .response env (fun _ conn => conn) hct.owns
        (hct.card.trans hcard.le) hroom hct.toContent hsize
      unfold httpParseResponseHeaders
      cases hp : Http.httpParseLines .response (r.ct.headerbuf.buf ++ env.uninit)
        r.ct.header.size.toNat r.ct.dict with
      | mk done dict =>
        rw [recvParsedOf_eq _ _ _ _ hp] at hparsed
        cases done <;> exact hparsed

end Receive

end Blocks
end Http
end Dukserver
