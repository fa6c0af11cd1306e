/-
# Building and sending a request

`libhttpd/http_sendrecv.c`, `http_start_request` (lines 572-589),
`_preprocess_request`, `_get_file_size`, `http_send_file` (lines 272-303) and
`http_send_request` (lines 805-902).  The host of a URL goes to the header `Host`
and its path to the request line.  `Content-Length` is the size of the file bound
under `HTTP_SENDFILE` or the size of the body buffer, while the bytes that are sent
are those of the file or of `ct->body`: `http_start_request` clears the second and
not the first.
-/

import Dukserver.Http.SendResponse
import Dukserver.Http.Text
import Dukserver.Http.Build

namespace Dukserver
namespace Http

open Lib (Bytes ascii cstr sprintfD toInt32)

/-- `http_start_request`; an argument that is `NULL` makes it return `-1`. -/
def httpStartRequest (ct : HttpContent) (method url : Option Bytes) : HttpContent :=
  match method, url with
  | some method, some url =>
    let dict := httpMapSet ct.dict HTTP_METHOD (some method)
    let dict := httpMapSet dict HTTP_URL (some url)
    let dict := httpMapSet dict HTTP_VERSION (some (ascii "HTTP/1.1"))
    let dict := httpMapSet dict (ascii "User-Agent") (some (ascii "libhttp/1.0.0"))
    let dict := httpMapSet dict (ascii "Accept") (some (ascii "*/*"))
    { ct with
      dict := httpMapSet dict (ascii "Host") (some (ascii "127.0.0.1"))
      body := ⟨.bodybuf 0, 0⟩ }
  | _, _ => ct

/-- The host and the path that `_preprocess_request` finds in the URL; without a
host, it is taken from the connection. -/
def splitUrl (url : Bytes) : Except Fault (Option Bytes × Bytes) :=
  match httpFindChar url 0 47 url.length with
  | some pslash =>
    if pslash = 0 then .ok (none, url)
    else match httpFindChar url 0 58 url.length with
      | some pcolon =>
        if pcolon < pslash then .ok (some (url.take pcolon), url.drop pslash)
        else .ok (some (url.take pslash), url.drop pslash)
      -- `pcolon` is `NULL`, below every address, and the host is `pcolon - url_str` long
      | none => .error .nullPointer
  | none => .ok (none, ascii "/")

/-- `_preprocess_request`; `url` is what it reads under `HTTP_URL`. -/
def preprocessRequest (conn : HttpConnection) (url : Bytes) (ct : HttpContent) :
    Except Fault HttpContent :=
  match splitUrl url with
  | .error e => .error e
  | .ok (host, path) =>
    let dict := httpMapSet ct.dict HTTP_URL (some path)
    .ok { ct with dict := httpMapSet dict (ascii "Host") (some (host.getD conn.host)) }

/-- `_get_file_size`; `files` are the contents of the files that can be opened. -/
def getFileSize (files : Bytes → Option Bytes) (fn : Bytes) : ℤ :=
  match files fn with
  | none => 0
  | some data => toInt32 data.length

/-- `http_send_file`: what it returns is the sum of what was sent. -/
def httpSendFile (files : Bytes → Option Bytes) (h : Socket) (fn : Bytes) : ℤ × Socket :=
  match files fn with
  | none => (0, h)
  | some data =>
    (sendBlocks data.length data).foldl
      (fun r block => (toInt32 (r.1 + (socketSend r.2 block).1), (socketSend r.2 block).2)) (0, h)

/-- The part of `http_send_request` that sets `Content-Length`. -/
def announceLength (files : Bytes → Option Bytes) (ct : HttpContent) : HttpContent :=
  match httpMapGet ct.dict HTTP_SENDFILE with
  | some fn => httpHeader ct (ascii "Content-Length") (some (sprintfD (getFileSize files fn)))
  | none =>
    if 0 < ct.bodybuf.size then
      httpHeader ct (ascii "Content-Length") (some (sprintfD ct.bodybuf.size))
    else ct

/-- The header block. -/
def requestBlock (method url version : Bytes) (dict : HttpMap) : Bytes :=
  method ++ ascii " " ++ url ++ ascii " " ++ version ++ [13, 10] ++ headerLines dict ++ [13, 10]

/-- The header block of a content whose method, URL and version are there. -/
def requestHead (ct : HttpContent) : Option Bytes :=
  match httpMapGet ct.dict HTTP_METHOD, httpMapGet ct.dict HTTP_URL,
    httpMapGet ct.dict HTTP_VERSION with
  | some method, some url, some version => some (requestBlock method url version ct.dict)
  | _, _, _ => none

/-- `http_send_request`: the value it returns, the connection and the content. -/
def httpSendRequest (files : Bytes → Option Bytes) (conn : HttpConnection) (ct : HttpContent) :
    Except Fault (ℤ × HttpConnection × HttpContent) :=
  match httpMapGet ct.dict HTTP_METHOD, httpMapGet ct.dict HTTP_URL,
    httpMapGet ct.dict HTTP_VERSION with
  | some _, some url, some _ =>
    match preprocessRequest conn url ct with
    | .error e => .error e
    | .ok ct =>
      let sendfile := httpMapGet ct.dict HTTP_SENDFILE
      let ct := announceLength files ct
      -- the strings are read again
      match requestHead ct with
      | none => .error .nullPointer
      | some buffer =>
        if HTTP_MAX_SEND_BLOCK < buffer.length then .error .outOfBounds
        else
          let r := socketSend conn.handle buffer
          match sendfile with
          | some fn =>
            let q := httpSendFile files r.2 fn
            .ok (toInt32 (r.1 + q.1), { conn with handle := q.2 }, ct)
          | none =>
            if 0 < ct.body.size then
              match ct.load ct.body with
              | .error e => .error e
              | .ok body =>
                let q := httpSendBinary r.2 body
                .ok (toInt32 (r.1 + q.1), { conn with handle := q.2 }, ct)
            else .ok (toInt32 r.1, { conn with handle := r.2 }, ct)
  | _, _, _ => .ok (-1, conn, ct)

/-- Calls that build a request. -/
abbrev RequestCall := Call (Option Bytes × Option Bytes)

/-- The request that the calls build. -/
def buildRequest (calls : List RequestCall) : HttpContent :=
  build (fun ct a => httpStartRequest ct a.1 a.2) calls

/-- What is sent behind the header block of a prepared content. -/
def requestBody (files : Bytes → Option Bytes) (ct : HttpContent) : Except Fault Bytes :=
  match httpMapGet ct.dict HTTP_SENDFILE with
  | some fn => .ok ((files fn).getD [])
  | none => ct.load ct.body

section Send

variable {files : Bytes → Option Bytes} {conn : HttpConnection} {ct ct₁ : HttpContent}
  {url head body : Bytes}

/-- A file is sent block by block, and a file that is not there as one without a
byte. -/
theorem httpSendFile_snd (files : Bytes → Option Bytes) (h : Socket) (fn : Bytes) :
    (httpSendFile files h fn).2 = socketSends h
      (sendBlocks ((files fn).getD []).length ((files fn).getD [])) := by
  have hfold : ∀ (blocks : List Bytes) (r : ℤ × Socket), (blocks.foldl
      (fun r block => (toInt32 (r.1 + (socketSend r.2 block).1), (socketSend r.2 block).2)) r).2 =
        socketSends r.2 blocks := by
    intro blocks
    induction blocks with
    | nil => exact fun _ => rfl
    | cons block blocks ih => exact fun r => ih _
  rw [httpSendFile]
  cases files fn with
  | none => rfl
  | some data => exact hfold _ _

/-- Announcing the length does not change what is sent under another key. -/
theorem httpMapGet_announceLength {k : Bytes} (hk : cstr k ≠ ascii "Content-Length") :
    httpMapGet (announceLength files ct).dict k = httpMapGet ct.dict k := by
  have hset : ∀ v, httpMapGet (httpHeader ct (ascii "Content-Length") v).dict k =
      httpMapGet ct.dict k := fun v => httpMapGet_set_of_ne (by
    rwa [show cstr (ascii "Content-Length") = ascii "Content-Length" by decide])
  rw [announceLength]
  split
  · exact hset _
  · split_ifs
    · exact hset _
    · rfl

/-- Nor does it change the buffers.  It is a header of the dictionary like any
other. -/
theorem announceLength_buffers (files : Bytes → Option Bytes) (ct : HttpContent) :
    (announceLength files ct).body = ct.body ∧
    (announceLength files ct).bodybuf = ct.bodybuf ∧
    (announceLength files ct).headerbuf = ct.headerbuf := by
  rw [announceLength]
  split
  · exact ⟨rfl, rfl, rfl⟩
  · split_ifs <;> exact ⟨rfl, rfl, rfl⟩

/-- **What is sent once the header block was built**: the block, and then the
file or the body. -/
theorem httpSendRequest_eq (hmethod : httpMapGet ct.dict HTTP_METHOD ≠ none)
    (hurl : httpMapGet ct.dict HTTP_URL = some url)
    (hversion : httpMapGet ct.dict HTTP_VERSION ≠ none)
    (hpre : preprocessRequest conn url ct = .ok ct₁)
    (hhead : requestHead (announceLength files ct₁) = some head)
    (hbody : requestBody files (announceLength files ct₁) = .ok body) :
    ∃ ret, httpSendRequest files conn ct =
      if HTTP_MAX_SEND_BLOCK < head.length then .error .outOfBounds
      else .ok (ret, ⟨conn.host, conn.port,
        socketSends conn.handle (head :: sendBlocks body.length body)⟩,
        announceLength files ct₁) := by
  obtain ⟨method, hmethod⟩ := Option.ne_none_iff_exists'.1 hmethod
  obtain ⟨version, hversion⟩ := Option.ne_none_iff_exists'.1 hversion
  rw [requestBody, httpMapGet_announceLength (by decide)] at hbody
  unfold httpSendRequest
  rw [hmethod, hurl, hversion]
  simp only [hpre, hhead]
  by_cases hlong : HTTP_MAX_SEND_BLOCK < head.length
  · simp only [if_pos hlong]
    exact ⟨0, trivial⟩
  · simp only [if_neg hlong]
    cases hfile : httpMapGet ct₁.dict HTTP_SENDFILE with
    | some fn =>
      rw [hfile] at hbody
      obtain rfl := Except.ok.inj hbody
      simp only [httpSendFile_snd]
      exact ⟨_, rfl⟩
    | none =>
      rw [hfile] at hbody
      by_cases hsize : 0 < (announceLength files ct₁).body.size
      · simp only [if_pos hsize, hbody]
        exact ⟨_, rfl⟩
      · have hnil : body = [] := by
          rw [HttpContent.load, if_pos (not_lt.1 hsize)] at hbody
          exact (Except.ok.inj hbody).symm
        rw [hnil]
        simp only [if_neg hsize]
        exact ⟨_, rfl⟩

end Send

section Preprocess

variable {conn : HttpConnection} {ct ct₁ : HttpContent} {url k : Bytes}

/-- A URL that `_preprocess_request` can take apart: if it has a slash, it
starts with it or it has a colon. -/
def UrlSplits (url : Bytes) : Prop := 47 ∈ url → url.head? ≠ some 47 → 58 ∈ url

instance (url : Bytes) : Decidable (UrlSplits url) := inferInstanceAs (Decidable (_ → _ → _))

/-- **`NULL` is compared with the slash for the other URLs**, so those are a
fault. -/
theorem splitUrl_isOk : (∃ r, splitUrl url = .ok r) ↔ UrlSplits url := by
  rw [splitUrl, UrlSplits]
  cases hslash : httpFindChar url 0 47 url.length with
  | none =>
    have hnot := httpFindChar_eq_none.1 hslash
    exact iff_of_true ⟨_, rfl⟩ fun hmem => absurd hmem hnot
  | some pslash =>
    have hmem : 47 ∈ url := by
      by_contra hnot
      rw [httpFindChar_eq_none.2 hnot] at hslash
      cases hslash
    by_cases hzero : pslash = 0
    · subst hzero
      simp only [if_pos]
      exact iff_of_true ⟨_, rfl⟩ fun _ hne => absurd (httpFindChar_eq_zero.1 hslash) hne
    · have hhead : url.head? ≠ some 47 := fun hhead => by
        rw [httpFindChar_eq_zero.2 hhead] at hslash
        exact hzero (Option.some.inj hslash).symm
      simp only [if_neg hzero]
      cases hcolon : httpFindChar url 0 58 url.length with
      | none =>
        refine iff_of_false (by simp) fun h => ?_
        exact httpFindChar_eq_none.1 hcolon (h hmem hhead)
      | some pcolon =>
        refine iff_of_true ?_ fun _ _ => ?_
        · simp only
          split_ifs <;> exact ⟨_, rfl⟩
        · by_contra hnot
          rw [httpFindChar_eq_none.2 hnot] at hcolon
          cases hcolon

/-- A URL that starts with a slash is a path. -/
theorem splitUrl_of_slash (h : url.head? = some 47) : splitUrl url = .ok (none, url) := by
  rw [splitUrl, httpFindChar_eq_zero.2 h]
  rfl

/-- The rest of `_preprocess_request` does not fail. -/
theorem preprocessRequest_isOk : (∃ ct₁, preprocessRequest conn url ct = .ok ct₁) ↔
    UrlSplits url := by
  rw [← splitUrl_isOk, preprocessRequest]
  cases splitUrl url with
  | error e => simp
  | ok r => exact iff_of_true ⟨_, rfl⟩ ⟨r, rfl⟩

/-- It sets the URL and the host and nothing else.  A URL without a host gives
the host of the connection. -/
theorem preprocessRequest_ok (h : preprocessRequest conn url ct = .ok ct₁) :
    ∃ host path, splitUrl url = .ok (host, path) ∧ ct₁ = { ct with
      dict := httpMapSet (httpMapSet ct.dict HTTP_URL (some path)) (ascii "Host")
        (some (host.getD conn.host)) } := by
  rw [preprocessRequest] at h
  cases hsplit : splitUrl url with
  | error e =>
    rw [hsplit] at h
    cases h
  | ok r =>
    rw [hsplit] at h
    exact ⟨r.1, r.2, rfl, (Except.ok.inj h).symm⟩

/-- The buffers stay as they are. -/
theorem preprocessRequest_buffers (h : preprocessRequest conn url ct = .ok ct₁) :
    ct₁.body = ct.body ∧ ct₁.bodybuf = ct.bodybuf := by
  obtain ⟨host, path, -, rfl⟩ := preprocessRequest_ok h
  exact ⟨rfl, rfl⟩

/-- So do the other entries. -/
theorem httpMapGet_preprocess (h : preprocessRequest conn url ct = .ok ct₁)
    (hurl : cstr k ≠ HTTP_URL) (hhost : cstr k ≠ ascii "Host") :
    httpMapGet ct₁.dict k = httpMapGet ct.dict k := by
  obtain ⟨host, path, -, rfl⟩ := preprocessRequest_ok h
  rw [httpMapGet_set_of_ne (by rwa [show cstr (ascii "Host") = ascii "Host" by decide]),
    httpMapGet_set_of_ne (by rwa [show cstr HTTP_URL = HTTP_URL by decide])]

/-- What is preprocessed has a header block: the URL was set, and the method and
the version are still there. -/
theorem exists_requestHead (files : Bytes → Option Bytes)
    (hmethod : httpMapGet ct.dict HTTP_METHOD ≠ none)
    (hversion : httpMapGet ct.dict HTTP_VERSION ≠ none)
    (h : preprocessRequest conn url ct = .ok ct₁) :
    ∃ head, requestHead (announceLength files ct₁) = some head := by
  obtain ⟨method, hmethod⟩ := Option.ne_none_iff_exists'.1 hmethod
  obtain ⟨version, hversion⟩ := Option.ne_none_iff_exists'.1 hversion
  have hurl : ∃ path, httpMapGet ct₁.dict HTTP_URL = some path := by
    obtain ⟨host, path, -, rfl⟩ := preprocessRequest_ok h
    exact ⟨cstr path, by rw [httpMapGet_set_of_ne (by decide), httpMapGet_set_self rfl]; rfl⟩
  obtain ⟨path, hurl⟩ := hurl
  rw [requestHead, httpMapGet_announceLength (by decide), httpMapGet_announceLength (by decide),
    httpMapGet_announceLength (by decide),
    httpMapGet_preprocess (k := HTTP_METHOD) h (by decide) (by decide), hmethod, hurl,
    httpMapGet_preprocess (k := HTTP_VERSION) h (by decide) (by decide), hversion]
  exact ⟨_, rfl⟩

end Preprocess

/-- Over every socket whose sends are complete, the request goes out as its
header block and `body`; `ct'` is the content that the block was built from. -/
structure SentAs (files : Bytes → Option Bytes) (conn : HttpConnection) (ct ct' : HttpContent)
    (head body : Bytes) : Prop where
  built : requestHead ct' = some head
  sent : ∀ h : Socket, AcceptsAll ⟨conn.host, conn.port, h⟩ head body → ∃ ret h',
    httpSendRequest files ⟨conn.host, conn.port, h⟩ ct =
      .ok (ret, ⟨conn.host, conn.port, h'⟩, ct') ∧ h'.sent = h.sent ++ (head ++ body)

/-- **A prepared request is sent as it was built**, and only so: the bytes of a
socket that accepts everything say what the header block and the body were. -/
theorem sentAs_iff {files : Bytes → Option Bytes} {conn : HttpConnection}
    {ct ct₁ ct' : HttpContent} {url head head₀ body body₀ : Bytes}
    (hmethod : httpMapGet ct.dict HTTP_METHOD ≠ none)
    (hurl : httpMapGet ct.dict HTTP_URL = some url)
    (hversion : httpMapGet ct.dict HTTP_VERSION ≠ none)
    (hpre : preprocessRequest conn url ct = .ok ct₁)
    (hhead : requestHead (announceLength files ct₁) = some head₀)
    (hbody : requestBody files (announceLength files ct₁) = .ok body₀) :
    SentAs files conn ct ct' head body ↔
      head₀.length ≤ HTTP_MAX_SEND_BLOCK ∧ ct' = announceLength files ct₁ ∧ head = head₀ ∧
        body = body₀ := by
  have hsend : ∀ h : Socket, ∃ ret, httpSendRequest files ⟨conn.host, conn.port, h⟩ ct =
      if HTTP_MAX_SEND_BLOCK < head₀.length then .error .outOfBounds
      else .ok (ret, ⟨conn.host, conn.port,
        socketSends h (head₀ :: sendBlocks body₀.length body₀)⟩, announceLength files ct₁) :=
    fun h => httpSendRequest_eq hmethod hurl hversion hpre hhead hbody
  constructor
  · rintro ⟨hbuilt, hsent⟩
    obtain ⟨ret, h', hrun, hout⟩ := hsent ⟨[], [], []⟩ (acceptsAll_eager _ _ _ _ _ _)
    obtain ⟨ret₀, heq⟩ := hsend ⟨[], [], []⟩
    rw [heq] at hrun
    split_ifs at hrun with hlong
    obtain ⟨-, hrest⟩ := Prod.mk.inj (Except.ok.inj hrun)
    obtain ⟨hconn, rfl⟩ := Prod.mk.inj hrest
    obtain rfl : head₀ = head := Option.some.inj (hhead.symm.trans hbuilt)
    have hall := acceptsAll_iff.1 (acceptsAll_eager conn.host conn.port [] [] head₀ body₀)
    rw [(HttpConnection.mk.inj hconn).2.2, hout] at hall
    exact ⟨not_lt.1 hlong, rfl, rfl, List.append_cancel_left hall⟩
  · rintro ⟨hlong, rfl, rfl, rfl⟩
    refine ⟨hhead, fun h haccepts => ?_⟩
    obtain ⟨ret, heq⟩ := hsend h
    rw [if_neg (not_lt.2 hlong)] at heq
    exact ⟨ret, _, heq, acceptsAll_iff.1 haccepts⟩

/-- A header block is not empty. -/
theorem requestHead_ne_nil {ct : HttpContent} : requestHead ct ≠ some [] := by
  rw [requestHead]
  split
  · simp [requestBlock]
  · simp

/-- A request that is sent has a method, a URL that can be taken apart, and a
version. -/
theorem SentAs.prepared {files : Bytes → Option Bytes} {conn : HttpConnection}
    {ct ct' : HttpContent} {head body : Bytes} (h : SentAs files conn ct ct' head body) :
    httpMapGet ct.dict HTTP_METHOD ≠ none ∧ httpMapGet ct.dict HTTP_VERSION ≠ none ∧
      ∃ url ct₁, httpMapGet ct.dict HTTP_URL = some url ∧
        preprocessRequest conn url ct = .ok ct₁ := by
  obtain ⟨ret, h', hrun, hout⟩ := h.sent ⟨[], [], []⟩ (fun p hp => absurd hp List.not_mem_nil)
  have hstart : httpSendRequest files ⟨conn.host, conn.port, ⟨[], [], []⟩⟩ ct ≠
      .ok (-1, ⟨conn.host, conn.port, ⟨[], [], []⟩⟩, ct) := by
    rw [hrun]
    intro he
    have hconn := (Prod.mk.inj (Prod.mk.inj (Except.ok.inj he)).2).1
    rw [(HttpConnection.mk.inj hconn).2.2] at hout
    obtain ⟨hnil, -⟩ := List.append_eq_nil_iff.1 (List.nil_append _ ▸ hout.symm)
    exact requestHead_ne_nil (hnil ▸ h.built)
  cases hmethod : httpMapGet ct.dict HTTP_METHOD with
  | none => exact absurd (by rw [httpSendRequest, hmethod]) hstart
  | some method =>
    cases hurl : httpMapGet ct.dict HTTP_URL with
    | none => exact absurd (by rw [httpSendRequest, hmethod, hurl]) hstart
    | some url =>
      cases hversion : httpMapGet ct.dict HTTP_VERSION with
      | none => exact absurd (by rw [httpSendRequest, hmethod, hurl, hversion]) hstart
      | some version =>
        refine ⟨Option.some_ne_none _, Option.some_ne_none _, url, ?_⟩
        cases hpre : preprocessRequest conn url ct with
        | ok ct₁ => exact ⟨ct₁, rfl, rfl⟩
        | error e =>
          have hfail : preprocessRequest ⟨conn.host, conn.port, ⟨[], [], []⟩⟩ url ct = .error e :=
            hpre
          rw [httpSendRequest, hmethod, hurl, hversion] at hrun
          simp only [hfail] at hrun
          cases hrun

end Http
end Dukserver
