/-
# Building and sending a message in blocks of memory

`libhttpd/http_sendrecv.c`, `http_send_response`, `_preprocess_request`, `http_send_file`
and `http_send_request`, with the buffers and strings they allocate and free on the way,
and contents that a program builds by calls.  Each of them does what it does without the
addresses (`Http/SendResponse.lean`, `Http/SendRequest.lean`), and leaves the ledger with
what the content owns (`httpSendRequest_ends`, `httpSendResponse_ends`).
-/

import Dukserver.Http.ContentBlocks
import Dukserver.Lib.Outcome

namespace Dukserver
namespace Http
namespace Blocks

open Lib (Bytes SameOutcome ascii atoi cstr sprintfD toInt32)
open Lib.Effects (Ends ends_pure)
open Sys (Alloc Allocator Heap Owns httpMalloc httpFree MEMORY_LEN)

/-- What a call does. -/
def applyCall {σ : Type} (A : Allocator) (start : ContentT → σ → Alloc ContentT) (ct : ContentT) :
    Call σ → Alloc ContentT
  | .start a => start ct a
  | .header key value => httpHeader A ct key value
  | .write data => httpWrite A ct data data.length

/-- The request that the calls build. -/
def buildRequest (A : Allocator) (calls : List RequestCall) : Alloc ContentT := do
  let ct ← httpContentNew A
  calls.foldlM (applyCall A fun ct a => httpStartRequest A ct a.1 a.2) ct

/-- The response that the calls build. -/
def buildResponse (A : Allocator) (calls : List ResponseCall) : Alloc ContentT := do
  let ct ← httpContentNew A
  calls.foldlM (applyCall A fun ct a => httpStartResponse A a.1 ct a.2) ct

/-- What a message is sent with: the value returned, the connection and the
content. -/
abbrev SentT := Except Fault (ℤ × HttpConnection × ContentT)

/-- The body of a response that has none. -/
def defaultBody (A : Allocator) (statusCode : ℤ) (ct : ContentT) : Alloc ContentT :=
  if (statusCode = 200 ∨ statusCode = 404) ∧ ct.toContent.body.size ≤ 0 then
    httpWrite A ct (ascii "None") 4
  else return ct

/-- The part of `http_send_response` that completes the content. -/
def completeResponse (A : Allocator) (statusCode : ℤ) (ct : ContentT) : Alloc ContentT := do
  let ct ← defaultBody A statusCode ct
  if 0 < ct.toContent.body.size then
    httpHeader A ct (ascii "Content-Length") (some (sprintfD ct.toContent.body.size))
  else return ct

/-- `http_send_response`. -/
def httpSendResponse (A : Allocator) (conn : HttpConnection) (ct : ContentT) : Alloc SentT :=
  match httpMapGet ct.toContent.dict HTTP_STATUS, httpMapGet ct.toContent.dict HTTP_VERSION with
  | some status, some version => do
    let ct ← completeResponse A (atoi status) ct
    let p ← httpMalloc A HTTP_MAX_SEND_BLOCK
    let buffer := headerBlock version status ct.toContent.dict
    if HTTP_MAX_SEND_BLOCK < buffer.length then return .error .outOfBounds
    else
      let r := socketSend conn.handle buffer
      if 0 < ct.toContent.body.size then
        match ct.toContent.load ct.toContent.body with
        | .error e => return .error e
        | .ok body => do
          let q := httpSendBinary r.2 body
          httpFree p
          return .ok (toInt32 (r.1 + q.1), { conn with handle := q.2 }, ct)
      else do
        httpFree p
        return .ok (toInt32 r.1, { conn with handle := r.2 }, ct)
  | _, _ => return .ok (-1, conn, ct)

/-- The host of the URL, or a copy of the one of the connection. -/
def hostOr (A : Allocator) (conn : HttpConnection) : Option Str → Alloc Str
  | some requestHost => return requestHost
  | none => httpStrdup A conn.host

/-- `_preprocess_request`; `url` is what it reads under `HTTP_URL`. -/
def preprocessRequest (A : Allocator) (conn : HttpConnection) (url : Bytes) (ct : ContentT) :
    Alloc (Except Fault ContentT) :=
  match splitUrl url with
  | .error e => return .error e
  | .ok (host, path) => do
    let urlHost ← copyValue A host
    let requestPath ← httpStrdup A path
    let requestHost ← hostOr A conn urlHost
    let ct ← httpHeader A ct HTTP_URL (some requestPath.bytes)
    httpFree requestPath.p
    let ct ← httpHeader A ct (ascii "Host") (some requestHost.bytes)
    httpFree requestHost.p
    return .ok ct

/-- `http_send_file`. -/
def httpSendFile (A : Allocator) (files : Bytes → Option Bytes) (h : Socket) (fn : Bytes) :
    Alloc (ℤ × Socket) :=
  match files fn with
  | none => return (0, h)
  | some _ => do
    let buffer ← httpMalloc A HTTP_MAX_SEND_BLOCK
    let r := Http.httpSendFile files h fn
    httpFree buffer
    return r

/-- The part of `http_send_request` that sets `Content-Length`. -/
def announceLength (A : Allocator) (files : Bytes → Option Bytes) (ct : ContentT) :
    Alloc ContentT :=
  match httpMapGet ct.toContent.dict HTTP_SENDFILE with
  | some fn => httpHeader A ct (ascii "Content-Length") (some (sprintfD (getFileSize files fn)))
  | none =>
    if 0 < ct.toContent.bodybuf.size then
      httpHeader A ct (ascii "Content-Length") (some (sprintfD ct.toContent.bodybuf.size))
    else return ct

/-- `http_send_request` from where the header block is written. -/
def sendPrepared (A : Allocator) (files : Bytes → Option Bytes) (conn : HttpConnection)
    (sendfile : Option Bytes) (ct : ContentT) : Alloc SentT := do
  let p ← httpMalloc A HTTP_MAX_SEND_BLOCK
  match requestHead ct.toContent with
  | none => return .error .nullPointer
  | some buffer =>
    if HTTP_MAX_SEND_BLOCK < buffer.length then return .error .outOfBounds
    else
      let r := socketSend conn.handle buffer
      match sendfile with
      | some fn => do
        let q ← httpSendFile A files r.2 fn
        httpFree p
        return .ok (toInt32 (r.1 + q.1), { conn with handle := q.2 }, ct)
      | none =>
        if 0 < ct.toContent.body.size then
          match ct.toContent.load ct.toContent.body with
          | .error e => return .error e
          | .ok body => do
            let q := httpSendBinary r.2 body
            httpFree p
            return .ok (toInt32 (r.1 + q.1), { conn with handle := q.2 }, ct)
        else do
          httpFree p
          return .ok (toInt32 r.1, { conn with handle := r.2 }, ct)

/-- `http_send_request`. -/
def httpSendRequest (A : Allocator) (files : Bytes → Option Bytes) (conn : HttpConnection)
    (ct : ContentT) : Alloc SentT :=
  match httpMapGet ct.toContent.dict HTTP_METHOD, httpMapGet ct.toContent.dict HTTP_URL,
    httpMapGet ct.toContent.dict HTTP_VERSION with
  | some _, some url, some _ => do
    match ← preprocessRequest A conn url ct with
    | .error e => return .error e
    | .ok ct => do
      let sendfile := httpMapGet ct.toContent.dict HTTP_SENDFILE
      let ct ← announceLength A files ct
      sendPrepared A files conn sendfile ct
  | _, _, _ => return .ok (-1, conn, ct)

/-! ### What they leave -/

/-- A message was sent with the same value, over the same connection, and its
content has become the same. -/
def SentSame (M : Sys.Blocks) (n : ℕ) (ct : ContentT) (t : Heap)
    (p : ℤ × HttpConnection × HttpContent) (q : ℤ × HttpConnection × ContentT) : Prop :=
  q.1 = p.1 ∧ q.2.1 = p.2.1 ∧ Becomes M n ct p.2.2 q.2.2 t

section Build

variable {A : Allocator} {h t : Heap} {M : Sys.Blocks} {ct ct₁ : ContentT} {n n₁ : ℕ}
  {c : HttpContent}

/-- **A content is built as without addresses**, with at most twelve blocks for
each call, which is what a start takes. -/
theorem applyCalls_ends {σ : Type} (start : HttpContent → σ → HttpContent)
    {startT : ContentT → σ → Alloc ContentT}
    (hstart : ∀ (ct : ContentT) (a : σ) (h : Heap), Owns h (ct.blocks + M) →
      (ct.blocks + M).card + 12 ≤ MEMORY_LEN →
        Ends (startT ct a) h (Becomes M 12 ct (start ct.toContent a)))
    (calls : List (Call σ)) (ho : Owns h (ct.blocks + M))
    (hroom : (ct.blocks + M).card + 12 * calls.length ≤ MEMORY_LEN) :
    Ends (calls.foldlM (applyCall A startT) ct) h
      (Becomes M (12 * calls.length) ct (calls.foldl (Call.apply start) ct.toContent)) := by
  induction calls generalizing ct h with
  | nil => exact ends_pure (Becomes.refl ho)
  | cons call calls ih =>
    rw [List.length_cons] at hroom ⊢
    have hcall : Ends (applyCall A startT ct call) h
        (Becomes M 12 ct (call.apply start ct.toContent)) := by
      cases call with
      | start a => exact hstart ct a h ho (by omega)
      | header key value =>
        exact (httpHeader_ends ho (by omega) key value).mono fun _ _ hct => hct.mono (by omega)
      | write data => exact (httpWrite_ends ho data _).mono fun _ _ hct => hct.mono (by omega)
    rw [List.foldlM_cons, List.foldl_cons]
    refine hcall.seq fun ct' t hct => ?_
    have hroom' := hct.room (k := 12 * calls.length) (by omega)
    refine (ih hct.owns hroom').mono fun ct'' u hct' => ?_
    rw [← hct.toContent, show 12 * (calls.length + 1) = 12 + 12 * calls.length by omega]
    exact hct.trans hct'

/-- A request is a new content, and the calls on it.  The content has nine
blocks, and each call adds at most twelve. -/
theorem buildRequest_ends (ho : Owns h M) (calls : List RequestCall)
    (hroom : M.card + (9 + 12 * calls.length) ≤ MEMORY_LEN) :
    Ends (buildRequest A calls) h fun ct t => Owns t (ct.blocks + M) ∧
      ct.blocks.card ≤ 9 + 12 * calls.length ∧ ct.toContent = Http.buildRequest calls := by
  refine (httpContentNew_ends ho (by omega)).seq ?_
  rintro ct t ⟨ht, hcard, hnew⟩
  refine (applyCalls_ends (fun ct a => Http.httpStartRequest ct a.1 a.2)
    (fun ct a h ho hr => httpStartRequest_ends ho hr a.1 a.2) calls ht
    (by rw [Multiset.card_add]; omega)).mono fun ct' u hct => ⟨hct.owns, ?_, ?_⟩
  · have := hct.card
    omega
  · rw [hct.toContent, hnew]
    rfl

/-- So is a response.  What its start sets are more entries, and the bound for a
call has room for them. -/
theorem buildResponse_ends (ho : Owns h M) (calls : List ResponseCall)
    (hroom : M.card + (9 + 12 * calls.length) ≤ MEMORY_LEN) :
    Ends (buildResponse A calls) h fun ct t => Owns t (ct.blocks + M) ∧
      ct.blocks.card ≤ 9 + 12 * calls.length ∧ ct.toContent = Http.buildResponse calls := by
  refine (httpContentNew_ends ho (by omega)).seq ?_
  rintro ct t ⟨ht, hcard, hnew⟩
  refine (applyCalls_ends (fun ct a => Http.httpStartResponse a.1 ct a.2) (fun ct a h ho hr =>
    (httpStartResponse_ends ho (by omega) a.1 a.2).mono fun _ _ hct => hct.mono (by omega)) calls ht
    (by rw [Multiset.card_add]; omega)).mono fun ct' u hct => ⟨hct.owns, ?_, ?_⟩
  · have := hct.card
    omega
  · rw [hct.toContent, hnew]
    rfl

end Build

section Send

variable {A : Allocator} {h : Heap} {M : Sys.Blocks} {ct : ContentT} {conn : HttpConnection}
  {files : Bytes → Option Bytes}

/-- The length of the body is announced, and a default body written before where
there is none. -/
theorem completeResponse_ends (ho : Owns h (ct.blocks + M))
    (hroom : (ct.blocks + M).card + 2 ≤ MEMORY_LEN) (statusCode : ℤ) :
    Ends (completeResponse A statusCode ct) h
      (Becomes M 2 ct (Http.completeResponse statusCode ct.toContent)) := by
  have hwrite : Ends (defaultBody A statusCode ct) h
      (Becomes M 0 ct (if (statusCode = 200 ∨ statusCode = 404) ∧ ct.toContent.body.size ≤ 0 then
        Http.httpWrite ct.toContent (ascii "None") 4 else ct.toContent)) := by
    unfold defaultBody
    split_ifs
    · exact httpWrite_ends ho _ _
    · exact ends_pure (Becomes.refl ho)
  refine hwrite.seq fun ct₁ t h₁ => ?_
  rw [Http.completeResponse]
  simp only [← h₁.toContent]
  split_ifs with hsize
  · exact (httpHeader_ends h₁.owns (h₁.room (by omega)) _ _).mono fun _ _ h₂ => h₁.trans h₂
  · exact ends_pure ((h₁.trans (Becomes.refl h₁.owns)).mono (by omega))

/-- **A response is sent as without the addresses**, and its buffer is given
back on both ways out. -/
theorem httpSendResponse_ends (ho : Owns h (ct.blocks + M))
    (hroom : (ct.blocks + M).card + 3 ≤ MEMORY_LEN) (conn : HttpConnection) :
    Ends (httpSendResponse A conn ct) h fun r t =>
      SameOutcome (SentSame M 2 ct t) (Http.httpSendResponse conn ct.toContent) r := by
  rw [httpSendResponse, Http.httpSendResponse]
  cases httpMapGet ct.toContent.dict HTTP_STATUS with
  | none => exact ends_pure (.ok ⟨rfl, rfl, (Becomes.refl ho).mono (by omega)⟩)
  | some status =>
    cases httpMapGet ct.toContent.dict HTTP_VERSION with
    | none => exact ends_pure (.ok ⟨rfl, rfl, (Becomes.refl ho).mono (by omega)⟩)
    | some version =>
      refine (completeResponse_ends ho (by omega) (atoi status)).seq fun ct₁ t h₁ => ?_
      have hroom₁ := h₁.room (k := 1) hroom
      refine (Sys.httpMalloc_ends h₁.owns (by omega) HTTP_MAX_SEND_BLOCK).seq fun p t hp => ?_
      simp only [← h₁.toContent]
      split_ifs
      · exact ends_pure (.error _)
      · cases ct₁.toContent.load ct₁.toContent.body with
        | error e => exact ends_pure (.error e)
        | ok body => exact (Sys.httpFree_ends hp).seq fun _ _ ht =>
            ends_pure (.ok ⟨rfl, rfl, ht, h₁.card, rfl⟩)
      · exact (Sys.httpFree_ends hp).seq fun _ _ ht => ends_pure (.ok ⟨rfl, rfl, ht, h₁.card, rfl⟩)

/-- The host of the URL, or a copy of that of the connection: one block in both
cases. -/
theorem hostOr_ends {o : Option Str} (ho : Owns h (optBlock o + M))
    (hroom : M.card < MEMORY_LEN) :
    Ends (hostOr A conn o) h fun s t => Owns t (s.block + M) ∧
      s.bytes = (o.map Str.bytes).getD (cstr conn.host) := by
  cases o with
  | none =>
    rw [optBlock, zero_add] at ho
    exact httpStrdup_ends ho hroom conn.host
  | some s => exact ends_pure ⟨ho, rfl⟩

/-- A header is set to what is before its first NUL, so a copy does as well. -/
theorem httpHeader_cstr (c : HttpContent) (key v : Bytes) :
    Http.httpHeader c key (some (cstr v)) = Http.httpHeader c key (some v) := by
  simp [Http.httpHeader, Http.httpMapSet, cstr_cstr]

/-- **The host and the path are copied, stored and freed**, in each of the
branches for the parts that a URL may have. -/
theorem preprocessRequest_ends (ho : Owns h (ct.blocks + M))
    (hroom : (ct.blocks + M).card + 6 ≤ MEMORY_LEN) (conn : HttpConnection) (url : Bytes) :
    Ends (preprocessRequest A conn url ct) h fun r t =>
      SameOutcome (fun c ct' => Becomes M 4 ct c ct' t)
        (Http.preprocessRequest conn url ct.toContent) r := by
  rw [preprocessRequest, Http.preprocessRequest]
  cases splitUrl url with
  | error e => exact ends_pure (.error e)
  | ok r =>
    obtain ⟨host, path⟩ := r
    refine (copyValue_ends ho (by omega) host).seq ?_
    rintro urlHost t ⟨ht, hurlHost⟩
    have hcard := card_optBlock_le urlHost
    refine (httpStrdup_ends ht (by rw [Multiset.card_add]; omega) path).seq ?_
    rintro requestPath t ⟨ht, hpath⟩
    rw [show requestPath.block + (optBlock urlHost + (ct.blocks + M)) =
      optBlock urlHost + (ct.blocks + (requestPath.block + M)) by abel] at ht
    have hroom' : ((ct.blocks + (requestPath.block + M))).card + 5 ≤ MEMORY_LEN := by
      simp only [Multiset.card_add, Str.block, Sys.card_block] at hroom ⊢
      omega
    refine (hostOr_ends ht (by omega)).seq ?_
    rintro requestHost t ⟨ht, hhost⟩
    rw [show requestHost.block + (ct.blocks + (requestPath.block + M)) =
      ct.blocks + (requestPath.block + (requestHost.block + M)) by abel] at ht
    refine (httpHeader_ends ht ?_ HTTP_URL (some requestPath.bytes)).seq fun ct₁ t h₁ => ?_
    · simp only [Multiset.card_add, Str.block, Sys.card_block] at hroom' ⊢
      omega
    have hct₁ := h₁.owns
    rw [show ct₁.blocks + (requestPath.block + (requestHost.block + M)) =
      requestPath.block + (ct₁.blocks + (requestHost.block + M)) by abel] at hct₁
    refine (Sys.httpFree_ends hct₁).seq fun _ t ht => ?_
    have hcard₁ := h₁.card
    refine (httpHeader_ends ht ?_ (ascii "Host") (some requestHost.bytes)).seq fun ct₂ t h₂ => ?_
    · simp only [Multiset.card_add, Str.block, Sys.card_block] at hroom ⊢
      omega
    have hct₂ := h₂.owns
    rw [show ct₂.blocks + (requestHost.block + M) = requestHost.block + (ct₂.blocks + M) by
      abel] at hct₂
    refine (Sys.httpFree_ends hct₂).seq fun _ t ht => ends_pure (.ok ⟨ht, ?_, ?_⟩)
    · have hcard₂ := h₂.card
      omega
    · rw [h₂.toContent, h₁.toContent, hpath, httpHeader_cstr, hhost, hurlHost]
      cases host with
      | none => exact httpHeader_cstr _ _ _
      | some host => exact httpHeader_cstr _ _ _

/-- A file is sent through one buffer, which is given back.  It is given back
however little the peer accepts. -/
theorem httpSendFile_ends (ho : Owns h M) (hroom : M.card < MEMORY_LEN) (s : Socket)
    (fn : Bytes) :
    Ends (httpSendFile A files s fn) h fun r t => Owns t M ∧ r = Http.httpSendFile files s fn := by
  unfold httpSendFile
  cases hfn : files fn with
  | none =>
    refine ends_pure ⟨ho, ?_⟩
    rw [Http.httpSendFile, hfn]
  | some data =>
    refine (Sys.httpMalloc_ends ho hroom HTTP_MAX_SEND_BLOCK).seq fun p t hp => ?_
    exact (Sys.httpFree_ends hp).seq fun _ _ ht => ends_pure ⟨ht, rfl⟩

/-- The length of the file or of the body is announced.  This is one more
header, so one key and one value. -/
theorem announceLength_ends (ho : Owns h (ct.blocks + M))
    (hroom : (ct.blocks + M).card + 2 ≤ MEMORY_LEN) :
    Ends (announceLength A files ct) h
      (Becomes M 2 ct (Http.announceLength files ct.toContent)) := by
  rw [announceLength, Http.announceLength]
  cases httpMapGet ct.toContent.dict HTTP_SENDFILE with
  | some fn => exact httpHeader_ends ho hroom _ _
  | none =>
    simp only
    split_ifs
    · exact httpHeader_ends ho hroom _ _
    · exact ends_pure ((Becomes.refl ho).mono (by omega))

/-- **A request is sent as without the addresses**, and its buffers are given
back, whichever send falls short. -/
theorem httpSendRequest_ends (ho : Owns h (ct.blocks + M))
    (hroom : (ct.blocks + M).card + 8 ≤ MEMORY_LEN) (conn : HttpConnection) :
    Ends (httpSendRequest A files conn ct) h fun r t =>
      SameOutcome (SentSame M 6 ct t) (Http.httpSendRequest files conn ct.toContent) r := by
  have hstop : Ends (return .ok (-1, conn, ct) : Alloc SentT) h fun r t =>
      SameOutcome (SentSame M 6 ct t) (.ok (-1, conn, ct.toContent)) r :=
    ends_pure (.ok ⟨rfl, rfl, (Becomes.refl ho).mono (by omega)⟩)
  rw [httpSendRequest, Http.httpSendRequest]
  cases httpMapGet ct.toContent.dict HTTP_METHOD with
  | none => exact hstop
  | some method =>
  cases httpMapGet ct.toContent.dict HTTP_URL with
  | none => exact hstop
  | some url =>
  cases httpMapGet ct.toContent.dict HTTP_VERSION with
  | none => exact hstop
  | some version =>
  simp only
  refine (preprocessRequest_ends ho (by omega) conn url).seq fun r t hpre => ?_
  generalize Http.preprocessRequest conn url ct.toContent = pre at hpre
  cases hpre with
  | error e => exact ends_pure (.error e)
  | ok h₁ =>
  rename_i c ct₁
  obtain rfl := h₁.toContent
  refine (announceLength_ends h₁.owns (h₁.room (by omega))).seq fun ct₂ t h₂ => ?_
  replace h₂ := h₁.trans h₂
  have hroom₂ := h₂.room (k := 2) hroom
  refine (Sys.httpMalloc_ends h₂.owns (by omega) HTTP_MAX_SEND_BLOCK).seq fun p t hp => ?_
  simp only [← h₂.toContent]
  cases requestHead ct₂.toContent with
  | none => exact ends_pure (.error _)
  | some buffer =>
  cases httpMapGet ct₁.toContent.dict HTTP_SENDFILE with
  | some fn =>
    simp only
    split_ifs
    · exact ends_pure (.error _)
    · refine (httpSendFile_ends hp ?_ _ fn).seq ?_
      · rw [Multiset.card_add, Sys.card_block]
        omega
      · rintro q t ⟨hp, rfl⟩
        exact (Sys.httpFree_ends hp).seq fun _ _ ht => ends_pure (.ok ⟨rfl, rfl, ht, h₂.card, rfl⟩)
  | none =>
    simp only
    split_ifs
    · exact ends_pure (.error _)
    · cases ct₂.toContent.load ct₂.toContent.body with
      | error e => exact ends_pure (.error e)
      | ok body => exact (Sys.httpFree_ends hp).seq fun _ _ ht =>
          ends_pure (.ok ⟨rfl, rfl, ht, h₂.card, rfl⟩)
    · exact (Sys.httpFree_ends hp).seq fun _ _ ht => ends_pure (.ok ⟨rfl, rfl, ht, h₂.card, rfl⟩)

end Send

end Blocks
end Http
end Dukserver
